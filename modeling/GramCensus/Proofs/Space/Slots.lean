import GramCensus.Proofs.RankTrie.Search
import GramCensus.Proofs.Stream.Windows
import GramCensus.Space

/-!
# Slots of counted spaces

A space numbers its n-grams without gaps: every slot below `Space.slots` stands for one n-gram, and
looking that n-gram up gives the slot back (`Space.Made.slot?_eq_some_iff`). So whether a byte
string shows a slot (`Space.shows`) is the same as whether the slot's n-gram is an infix of it.
-/

namespace GramCensus

namespace Space

/-- The spaces that can be made: the n-grams of three bytes, and the extensions of the stems of any
trie that was built. -/
inductive Made : Space → Prop where
  | trigrams : Made .trigrams
  | extensions {threshold : Nat} {table : GramTable} {trie : RankTrie} :
      (RankTrie.buildWith threshold table).2 = .ok trie → Made (.extensions trie)

variable {space : Space}

/-! ## N-grams of three bytes -/

theorem trigramSlot_eq (a b c : UInt8) :
    trigramSlot a b c = a.toNat * 65536 + b.toNat * 256 + c.toNat := by
  rw [trigramSlot, Nat.shiftLeft_eq, Nat.shiftLeft_eq]

theorem trigramSlot_lt (a b c : UInt8) : trigramSlot a b c < trigramSlots := by
  have first := a.toNat_lt
  have second := b.toNat_lt
  have third := c.toNat_lt
  rw [trigramSlot_eq, trigramSlots]
  omega

/-- A number cut to a byte is the byte that it is congruent to. -/
theorem toUInt8_eq {number : Nat} {byte : UInt8} (same : number % 256 = byte.toNat) :
    number.toUInt8 = byte := by
  apply UInt8.toNat_inj.1
  rw [← same]
  exact UInt8.toNat_ofNat'

/-- Three bytes are read back from their number. -/
theorem trigram_trigramSlot (a b c : UInt8) : trigram (trigramSlot a b c) = [a, b, c] := by
  have first := a.toNat_lt
  have second := b.toNat_lt
  have third := c.toNat_lt
  have high : trigramSlot a b c >>> 16 % 256 = a.toNat := by
    rw [trigramSlot_eq]
    omega
  have middle : trigramSlot a b c >>> 8 % 256 = b.toNat := by
    rw [trigramSlot_eq]
    omega
  have low : trigramSlot a b c % 256 = c.toNat := by
    rw [trigramSlot_eq]
    omega
  rw [trigram, toUInt8_eq high, toUInt8_eq middle, toUInt8_eq low]

/-- The number of a slot's three bytes is the slot. -/
theorem slot?_trigram {slot : Nat} (small : slot < trigramSlots) :
    Space.trigrams.slot? (trigram slot) = .ok (some slot) := by
  have high : (slot >>> 16).toUInt8.toNat = slot >>> 16 % 256 := UInt8.toNat_ofNat'
  have middle : (slot >>> 8).toUInt8.toNat = slot >>> 8 % 256 := UInt8.toNat_ofNat'
  have low : slot.toUInt8.toNat = slot % 256 := UInt8.toNat_ofNat'
  rw [trigramSlots] at small
  simp only [trigram, slot?, trigramSlot_eq, high, middle, low]
  congr 2
  omega

/-! ## Extensions of stems -/

theorem Made.spans {trie : RankTrie} (made : Made (.extensions trie)) :
    ∃ stems, trie.Over stems := by
  cases made with
  | @extensions threshold table _ built =>
    exact ⟨_, (RankTrie.built_of_buildWith (Prod.ext rfl built)).spans⟩

theorem stems_extensions {trie : RankTrie} {stems : List Bytes} (spans : trie.Over stems) :
    (Space.extensions trie).stems = stems.toArray := by
  rw [Space.stems, spans.stems_eq, List.map_map]
  congr 1
  exact List.zipIdx_map_fst 0 stems

/-- An extension is looked up by its stem and its last byte. -/
theorem slot?_extensions {trie : RankTrie} {stem : Bytes} (byte : UInt8)
    (width : stem.length = trie.stemLength) :
    (Space.extensions trie).slot? (stem ++ [byte]) =
      .ok ((trie.search stem).map fun id => id * 256 + byte.toNat) := by
  have enough : ¬ (stem ++ [byte]).length < trie.stemLength := by
    rw [List.length_append]
    omega
  have taken : (stem ++ [byte]).take trie.stemLength = stem := by
    rw [← width]
    exact List.take_left' rfl
  have last : (stem ++ [byte])[trie.stemLength]? = some byte := by
    rw [← width, List.getElem?_append_right (Nat.le_refl _), Nat.sub_self]
    rfl
  simp only [slot?, if_neg enough, taken, last]
  cases trie.search stem <;> rfl

theorem exists_eq_append_singleton {gram : Bytes} {length : Nat} (width : gram.length = length + 1) :
    ∃ stem byte, gram = stem ++ [byte] ∧ stem.length = length := by
  have nonempty : gram ≠ [] := by
    rintro rfl
    cases width
  refine ⟨gram.dropLast, gram.getLast nonempty, (List.dropLast_append_getLast nonempty).symm, ?_⟩
  rw [List.length_dropLast, width, Nat.add_sub_cancel]

/-! ## All slots -/

theorem gramLength_pos (space : Space) : 0 < space.gramLength := by
  cases space with
  | trigrams => exact Nat.succ_pos 2
  | extensions trie => exact Nat.succ_pos trie.stemLength

/-- A window that is as long as the space's n-grams can be looked up. -/
theorem exists_slot?_eq_ok {window : Bytes} (width : window.length = space.gramLength) :
    ∃ found, space.slot? window = .ok found := by
  cases space with
  | trigrams =>
    match window, width with
    | [a, b, c], _ => exact ⟨_, rfl⟩
  | extensions trie =>
    rcases exists_eq_append_singleton width with ⟨stem, byte, rfl, length⟩
    exact ⟨_, slot?_extensions byte length⟩

theorem Made.exists_gram? (made : space.Made) {slot : Nat} (small : slot < space.slots) :
    ∃ gram, space.gram? slot = some gram ∧ gram.length = space.gramLength := by
  cases space with
  | trigrams => exact ⟨trigram slot, rfl, rfl⟩
  | extensions trie =>
    rcases made.spans with ⟨stems, spans⟩
    have inside : slot / 256 < stems.length := by
      rw [slots, spans.stemCount_eq] at small
      omega
    have found : (Space.extensions trie).gram? slot = some (stems[slot / 256] ++ [slot.toUInt8]) := by
      simp [gram?, gramFrom?, stems_extensions spans, List.getElem?_eq_getElem inside]
    exact ⟨_, found, length_of_gramFrom?_stems found⟩

/-- An n-gram has a slot exactly if the slot stands for it. -/
theorem Made.slot?_eq_some_iff (made : space.Made) {gram : Bytes} {slot : Nat}
    (width : gram.length = space.gramLength) :
    space.slot? gram = .ok (some slot) ↔ slot < space.slots ∧ space.gram? slot = some gram := by
  cases space with
  | trigrams =>
    match gram, width with
    | [a, b, c], _ =>
      constructor
      · intro found
        cases found
        exact ⟨trigramSlot_lt a b c, congrArg some (trigram_trigramSlot a b c)⟩
      · rintro ⟨small, found⟩
        rw [← Option.some.inj found]
        exact slot?_trigram small
  | extensions trie =>
    rcases made.spans with ⟨stems, spans⟩
    rcases exists_eq_append_singleton width with ⟨stem, byte, rfl, length⟩
    have below := byte.toNat_lt
    rw [slot?_extensions byte length, gram?, gramFrom?, stems_extensions spans, List.getElem?_toArray,
      slots, spans.stemCount_eq]
    constructor
    · intro found
      rcases Option.map_eq_some_iff.1 (Except.ok.inj found) with ⟨id, searched, rfl⟩
      -- A slot is the number of a stem and a byte, so both are read back from it.
      have listed := spans.search_eq_some_iff.1 searched
      rcases List.getElem?_eq_some_iff.1 listed with ⟨inside, -⟩
      have number : (id * 256 + byte.toNat) / 256 = id := by omega
      have last : (id * 256 + byte.toNat).toUInt8 = byte := toUInt8_eq (by omega)
      refine ⟨by omega, ?_⟩
      rw [number, listed, last]
      rfl
    · rintro ⟨-, found⟩
      rcases Option.map_eq_some_iff.1 found with ⟨other, listed, same⟩
      obtain ⟨rfl, rfl⟩ : other = stem ∧ slot.toUInt8 = byte := by
        simpa using List.append_inj' same rfl
      rw [spans.search_eq_some_iff.2 listed]
      simp only [Option.map_some]
      congr 2
      rw [show slot.toUInt8.toNat = slot % 2 ^ 8 from UInt8.toNat_ofNat']
      omega

/-! ## Showing slots -/

/-- Whether some n-gram of a byte string has a slot. -/
def shows (space : Space) (slot : Nat) (bytes : Bytes) : Bool :=
  (Bytes.windows space.gramLength bytes).any fun gram => decide (space.slot? gram = .ok (some slot))

theorem shows_eq_true_iff {slot : Nat} {bytes : Bytes} :
    space.shows slot bytes = true ↔
      ∃ gram ∈ Bytes.windows space.gramLength bytes, space.slot? gram = .ok (some slot) := by
  simp [shows]

theorem shows_eq_false {slot : Nat} {bytes : Bytes} (short : bytes.length < space.gramLength) :
    space.shows slot bytes = false := by
  rw [shows, Bytes.windows_eq_nil short]
  rfl

/-- What shows in a byte string shows in its first window or behind its first byte. -/
theorem shows_cons {byte : UInt8} {rest : Bytes} (long : space.gramLength ≤ (byte :: rest).length)
    (slot : Nat) : space.shows slot (byte :: rest) =
      (decide (space.slot? ((byte :: rest).take space.gramLength) = .ok (some slot)) ||
        space.shows slot rest) := by
  rw [shows, Bytes.windows_cons long, List.any_cons]
  rfl

/-- What shows in a byte string shows in one of its parts, the second behind the last bytes of the
first. -/
theorem shows_append {overlap slot : Nat} (first second : Bytes)
    (length : space.gramLength = overlap + 1) :
    space.shows slot (first ++ second) =
      (space.shows slot first || space.shows slot (Bytes.lastBytes overlap first ++ second)) := by
  rw [shows, shows, shows, length, Bytes.windows_append, List.any_append]

/-- Whether an n-gram has a slot. -/
def numbers (space : Space) (gram : Bytes) : Bool :=
  match space.slot? gram with
  | .ok (some _) => true
  | _ => false

/-- The number of windows of a byte string that have a slot, repeated ones included. -/
def hits (space : Space) (bytes : Bytes) : Nat :=
  (Bytes.windows space.gramLength bytes).countP space.numbers

theorem hits_eq_zero {bytes : Bytes} (short : bytes.length < space.gramLength) :
    space.hits bytes = 0 := by
  rw [hits, Bytes.windows_eq_nil short]
  rfl

theorem hits_cons {byte : UInt8} {rest : Bytes} (long : space.gramLength ≤ (byte :: rest).length) :
    space.hits (byte :: rest) = space.hits rest +
      if space.numbers ((byte :: rest).take space.gramLength) then 1 else 0 := by
  rw [hits, Bytes.windows_cons long, List.countP_cons, hits]

/-- The windows of a byte string with a slot are those of its parts, the second behind the last
bytes of the first. -/
theorem hits_append {overlap : Nat} (first second : Bytes)
    (length : space.gramLength = overlap + 1) :
    space.hits (first ++ second) =
      space.hits first + space.hits (Bytes.lastBytes overlap first ++ second) := by
  rw [hits, hits, hits, length, Bytes.windows_append, List.countP_append]

/-- A byte string shows the slot of an n-gram exactly if the n-gram is an infix of it. -/
theorem Made.shows_iff (made : space.Made) {slot : Nat} {gram bytes : Bytes}
    (width : gram.length = space.gramLength) (numbered : space.slot? gram = .ok (some slot)) :
    space.shows slot bytes = true ↔ gram <:+: bytes := by
  rw [shows_eq_true_iff]
  constructor
  · rintro ⟨other, member, found⟩
    rcases (Bytes.mem_windows_iff space.gramLength_pos).1 member with ⟨length, inside⟩
    have same := ((made.slot?_eq_some_iff length).1 found).2
    rw [((made.slot?_eq_some_iff width).1 numbered).2] at same
    rw [Option.some.inj same]
    exact inside
  · intro inside
    exact ⟨gram, (Bytes.mem_windows_iff space.gramLength_pos).2 ⟨width, inside⟩, numbered⟩

end Space

end GramCensus
