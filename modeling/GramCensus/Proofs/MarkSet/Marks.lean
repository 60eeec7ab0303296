import Std.Data.TreeMap.Lemmas
import GramCensus.Proofs.Space.Slots
import GramCensus.MarkSet

/-!
# Marks of a mark set

A mark set is a set of slots (`MarkSet.has`). Marking a chunk adds the slots that show in it and
nothing else (`MarkSet.mark_eq_ok`), and clearing removes all of them, because all words with a bit
lie in the extent (`MarkSet.Tidy`). Beside single slots one may ask whether there are marks at all
(`Sign`); marking answers for both (`MarkSet.mark_shows`).
-/

namespace GramCensus

/-! ## Words -/

theorem wordHas_withBit (word : UInt64) {bit other : Nat} (inside : bit < 64) (near : other < 64) :
    wordHas (withBit word bit) other = (wordHas word other || decide (bit = other)) := by
  have amount : bit.toUInt64.toNat % 64 = bit := by
    rw [show bit.toUInt64.toNat = bit % 2 ^ 64 from UInt64.toNat_ofNat']
    omega
  rw [wordHas, withBit, UInt64.toNat_or, UInt64.toNat_shiftLeft, amount, Nat.testBit_or,
    show (1 : UInt64).toNat = 1 from rfl, Nat.one_shiftLeft, Nat.testBit_mod_two_pow,
    Nat.testBit_two_pow]
  simp [near, wordHas]

theorem wordHas_zero (bit : Nat) : wordHas 0 bit = false := by
  simp [wordHas]

/-- A word has no bits behind its last one. -/
theorem wordHas_of_le (word : UInt64) {bit : Nat} (large : 64 ≤ bit) : wordHas word bit = false :=
  Nat.testBit_lt_two_pow
    (Nat.lt_of_lt_of_le word.toNat_lt (Nat.pow_le_pow_right (by omega) large))

namespace MarkSet

variable {marks : MarkSet}

/-- Whether a slot is marked. -/
def has (marks : MarkSet) (slot : Nat) : Bool :=
  wordHas (marks.word (slot / 64)) (slot % 64)

/-- All words with a bit lie in the extent, and the extent lies in the mark set. -/
structure Tidy (marks : MarkSet) : Prop where
  covered : ∀ i, marks.word i ≠ 0 → marks.low ≤ i ∧ i < marks.high
  inside : marks.high ≤ marks.size

theorem word_ne_zero_of_has {slot : Nat} (marked : marks.has slot = true) :
    marks.word (slot / 64) ≠ 0 := by
  intro zero
  rw [has, zero, wordHas_zero] at marked
  cases marked

theorem Tidy.has_of_not_hasMarks (tidy : marks.Tidy) (clean : marks.hasMarks = false)
    (slot : Nat) : marks.has slot = false := by
  apply Bool.eq_false_iff.2
  intro marked
  have bounds := tidy.covered _ (word_ne_zero_of_has marked)
  have none : ¬ marks.low < marks.high := by simpa [hasMarks] using clean
  omega

theorem has_mul_add (marks : MarkSet) (i : Nat) {bit : Nat} (small : bit < 64) :
    marks.has (i * 64 + bit) = wordHas (marks.word i) bit := by
  rw [has, show (i * 64 + bit) / 64 = i by omega, show (i * 64 + bit) % 64 = bit by omega]

theorem exists_has_of_word_ne_zero {i : Nat} (written : marks.word i ≠ 0) :
    ∃ slot, slot / 64 = i ∧ marks.has slot = true := by
  have some : (marks.word i).toNat ≠ 0 := fun zero => written (UInt64.toNat_inj.1 zero)
  rcases Nat.exists_testBit_of_ne_zero some with ⟨bit, set⟩
  have small : bit < 64 := by
    by_contra large
    exact Bool.false_ne_true ((wordHas_of_le _ (Nat.le_of_not_lt large)).symm.trans set)
  exact ⟨i * 64 + bit, by omega, (marks.has_mul_add i small).trans set⟩

theorem word_eq_of_mem_extentWords {i : Nat} {found : UInt64}
    (stored : (i, found) ∈ marks.extentWords) : marks.word i = found := by
  have held := Std.TreeMap.mem_toList_iff_getElem?_eq_some.1 (List.mem_filter.1 stored).1
  rw [word, Std.TreeMap.getD_eq_getD_getElem?, held, Option.getD_some]

/-- A word with a bit is stored in the extent. -/
theorem Tidy.mem_extentWords (tidy : marks.Tidy) {i : Nat} (written : marks.word i ≠ 0) :
    (i, marks.word i) ∈ marks.extentWords := by
  have bounds := tidy.covered i written
  have some : marks.hasMarks = true := decide_eq_true (Nat.lt_of_le_of_lt bounds.1 bounds.2)
  refine List.mem_filter.2 ⟨?_, by simp [extent, some, bounds]⟩
  rw [word, Std.TreeMap.getD_eq_getD_getElem?] at written ⊢
  cases stored : marks.words[i]? with
  | none =>
    rw [stored] at written
    exact absurd rfl written
  | some found => exact Std.TreeMap.mem_toList_iff_getElem?_eq_some.2 stored

/-- All marks are among the first `size` slots. -/
def Within (size : Nat) (marks : MarkSet) : Prop :=
  ∀ slot, marks.has slot = true → slot < size

/-- Marks lie in the extent. -/
theorem Tidy.within_of_le (tidy : marks.Tidy) {words : Nat} (high_le : marks.high ≤ words) :
    marks.Within (words * 64) := by
  intro slot marked
  have bounds := tidy.covered _ (word_ne_zero_of_has marked)
  omega

/-! ## Clean mark sets -/

theorem word_empty (size i : Nat) : (empty size).word i = 0 :=
  Std.TreeMap.getD_emptyc

theorem tidy_empty (size : Nat) : (empty size).Tidy where
  covered := fun i written => absurd (word_empty size i) written
  inside := Nat.zero_le _

/-- Clearing makes all words zero. -/
theorem Tidy.word_clear (tidy : marks.Tidy) (i : Nat) : marks.clear.word i = 0 := by
  rw [word, clear, Std.TreeMap.getD_eq_getD_getElem?, Std.TreeMap.getElem?_filter']
  cases stored : marks.words[i]? with
  | none => rfl
  | some found =>
    by_cases zero : found = 0
    · rw [zero]
      simp only [Option.filter]
      split <;> rfl
    · have same : marks.word i = found := by
        rw [word, Std.TreeMap.getD_eq_getD_getElem?, stored, Option.getD_some]
      have bounds := tidy.covered i (by rwa [same])
      -- A word with a bit lies in the extent, so the filter drops it.
      have some : marks.hasMarks = true := decide_eq_true (Nat.lt_of_le_of_lt bounds.1 bounds.2)
      simp [extent, some, bounds]

theorem Tidy.clear (tidy : marks.Tidy) : marks.clear.Tidy where
  covered := fun i written => absurd (tidy.word_clear i) written
  inside := Nat.zero_le _

/-! ## Marking -/

/-- Setting a bit marks its slot and no other one. -/
theorem set_eq_ok {bit : Nat} (inside : bit / 64 < marks.size) :
    ∃ after, marks.set bit = .ok after ∧ after.size = marks.size ∧
      (∀ slot, after.has slot = (marks.has slot || decide (bit = slot))) ∧
      (marks.Tidy → after.Tidy) := by
  refine ⟨_, if_pos inside, rfl, ?_, fun tidy => ⟨?_, ?_⟩⟩
  · intro slot
    rw [has, word, Std.TreeMap.getD_insert]
    by_cases same : bit / 64 = slot / 64
    · rw [if_pos (Nat.compare_eq_eq.2 same), wordHas_withBit _ (Nat.mod_lt _ (by omega))
        (Nat.mod_lt _ (by omega)), has, same]
      congr 2
      exact propext (by omega)
    · have other : bit ≠ slot := fun equal => same (congrArg (· / 64) equal)
      rw [if_neg (fun equal => same (Nat.compare_eq_eq.1 equal)), decide_eq_false other,
        Bool.or_false]
      rfl
  · intro i written
    rw [word, Std.TreeMap.getD_insert] at written
    -- Without marks the extent starts anew at the word, which is the only one with a bit.
    by_cases some : marks.hasMarks = true
    · simp only [some, if_true]
      by_cases same : bit / 64 = i
      · omega
      · rw [if_neg (fun equal => same (Nat.compare_eq_eq.1 equal))] at written
        have bounds := tidy.covered i written
        omega
    · simp only [some]
      by_cases same : bit / 64 = i
      · simp [same]
      · rw [if_neg (fun equal => same (Nat.compare_eq_eq.1 equal))] at written
        have bounds := tidy.covered i written
        have none : ¬ marks.low < marks.high := by simpa [hasMarks] using some
        omega
  · have fits := tidy.inside
    by_cases some : marks.hasMarks = true
    · simp only [some, if_true]
      omega
    · simp only [some, Bool.false_eq_true, if_false]
      omega

/-- Setting a bit leaves the size and the extent in order. -/
theorem shape_of_set {bit : Nat} {after : MarkSet} (setting : marks.set bit = .ok after) :
    after.size = marks.size ∧ (marks.Tidy → after.Tidy) := by
  by_cases inside : bit / 64 < marks.size
  · rcases set_eq_ok inside with ⟨other, same, size, -, tidy⟩
    cases setting.symm.trans same
    exact ⟨size, tidy⟩
  · rw [set, if_neg inside] at setting
    cases setting

/-- So does marking in any space, also where it fails midway. -/
theorem shape_markFrom (space : Space) (width marked : Nat) (chunk : Bytes) :
    (markFrom space width marked marks chunk).1.size = marks.size ∧
      (marks.Tidy → (markFrom space width marked marks chunk).1.Tidy) := by
  induction chunk generalizing marks marked with
  | nil => exact ⟨rfl, id⟩
  | cons byte rest ih =>
    rw [markFrom]
    split
    case isTrue => exact ⟨rfl, id⟩
    case isFalse =>
      split
      case h_1 => exact ⟨rfl, id⟩
      case h_2 => exact ih marked
      case h_3 =>
        split
        case h_1 => exact ⟨rfl, id⟩
        case h_2 more setting =>
          rcases shape_of_set setting with ⟨size, tidy⟩
          rcases @ih more (marked + 1) with ⟨restSize, restTidy⟩
          exact ⟨restSize.trans size, fun before => restTidy (tidy before)⟩

/-- Marking from some position on adds the slots that show from there on. -/
theorem markFrom_eq_ok {space : Space} (made : space.Made) (fits : space.slots ≤ marks.size * 64)
    (marked : Nat) (chunk : Bytes) :
    ∃ after count, markFrom space space.gramLength marked marks chunk = (after, .ok count) ∧
      after.size = marks.size ∧
      (∀ slot, after.has slot = (marks.has slot || space.shows slot chunk)) ∧
      (marks.Tidy → after.Tidy) := by
  induction chunk generalizing marks marked with
  | nil => exact ⟨marks, marked, rfl, rfl, fun slot => (Bool.or_false _).symm, id⟩
  | cons byte rest ih =>
    by_cases long : space.gramLength ≤ (byte :: rest).length
    · -- The first window is looked up; its slot, if it has one, is marked before the rest.
      have whole : ((byte :: rest).take space.gramLength).length = space.gramLength := by
        rw [List.length_take]
        omega
      have shown := @Space.shows_cons space byte rest long
      rcases space.exists_slot?_eq_ok whole with ⟨found, looked⟩
      rw [markFrom]
      simp only [whole, Nat.lt_irrefl, if_false, looked]
      cases found with
      | none =>
        rcases ih fits marked with ⟨after, count, run, size, has, tidy⟩
        refine ⟨after, count, run, size, ?_, tidy⟩
        intro slot
        rw [has, shown, looked]
        simp
      | some slot =>
        have small := ((made.slot?_eq_some_iff whole).1 looked).1
        have inside : slot / 64 < marks.size := by omega
        rcases set_eq_ok inside with ⟨more, setting, sameSize, more_has, more_tidy⟩
        rcases @ih more (by rwa [sameSize]) (marked + 1) with ⟨after, count, run, size, has, tidy⟩
        refine ⟨after, count, by simp only [setting, run], size.trans sameSize, ?_,
          fun before => tidy (more_tidy before)⟩
        intro other
        rw [has, more_has, shown, looked, Bool.or_assoc]
        simp
    · -- No window is left, here as behind every later byte.
      have short : ((byte :: rest).take space.gramLength).length < space.gramLength := by
        rw [List.length_take]
        omega
      refine ⟨marks, marked, by rw [markFrom]; simp only [if_pos short], rfl, ?_, id⟩
      intro slot
      rw [Space.shows_eq_false (by omega), Bool.or_false]

theorem hasMarks_of_set {bit : Nat} {after : MarkSet} (setting : marks.set bit = .ok after) :
    after.hasMarks = true := by
  by_cases inside : bit / 64 < marks.size
  · rw [set, if_pos inside] at setting
    cases setting
    apply decide_eq_true
    dsimp only
    split
    · omega
    · exact Nat.lt_succ_self _
  · rw [set, if_neg inside] at setting
    cases setting

/-- Where marking succeeds, all windows with a slot are counted, and there are marks if there is
one. -/
theorem hits_of_markFrom {space : Space} {marked : Nat} {chunk : Bytes} {after : MarkSet}
    {count : Nat} (run : markFrom space space.gramLength marked marks chunk = (after, .ok count)) :
    count = marked + space.hits chunk ∧
      after.hasMarks = (marks.hasMarks || decide (0 < space.hits chunk)) := by
  induction chunk generalizing marks marked with
  | nil =>
    cases run
    exact ⟨rfl, (Bool.or_false _).symm⟩
  | cons byte rest ih =>
    rw [markFrom] at run
    split at run
    case isTrue short =>
      rw [List.length_take] at short
      rw [Space.hits_eq_zero (by omega)]
      cases run
      exact ⟨rfl, (Bool.or_false _).symm⟩
    case isFalse whole =>
      rw [List.length_take] at whole
      have first := @Space.hits_cons space byte rest (by omega)
      split at run
      case h_1 => cases run
      case h_2 looked =>
        have none : space.numbers ((byte :: rest).take space.gramLength) = false := by
          rw [Space.numbers, looked]
        simp only [none, Bool.false_eq_true, if_false, Nat.add_zero] at first
        rw [first]
        exact ih run
      case h_3 slot looked =>
        have some : space.numbers ((byte :: rest).take space.gramLength) = true := by
          rw [Space.numbers, looked]
        simp only [some, if_true] at first
        split at run
        case h_1 => cases run
        case h_2 more setting =>
          rcases ih run with ⟨count_eq, marked_eq⟩
          rw [hasMarks_of_set setting, Bool.true_or] at marked_eq
          have positive : 0 < space.hits (byte :: rest) := by omega
          exact ⟨by omega, by rw [marked_eq, decide_eq_true positive, Bool.or_true]⟩

/-- Marking a chunk adds the slots that show in it, wherever every slot has a bit. -/
theorem mark_eq_ok {space : Space} (made : space.Made) (fits : space.slots ≤ marks.size * 64)
    (chunk : Bytes) :
    ∃ after count, marks.mark space chunk = (after, .ok count) ∧ after.size = marks.size ∧
      (∀ slot, after.has slot = (marks.has slot || space.shows slot chunk)) ∧
      (marks.Tidy → after.Tidy) :=
  markFrom_eq_ok made fits 0 chunk

end MarkSet

/-! ## Signs -/

/-- What mark sets and byte strings may show: the n-gram of a slot, or any n-gram of the space. -/
inductive Sign where
  | slot (mark : Nat)
  | any

namespace Sign

variable {sign : Sign} {space : Space} {marks : MarkSet}

/-- Whether a mark set shows a sign. -/
def on (sign : Sign) (marks : MarkSet) : Bool :=
  match sign with
  | .slot mark => marks.has mark
  | .any => marks.hasMarks

/-- Whether a byte string shows a sign. -/
def shownBy (sign : Sign) (space : Space) (bytes : Bytes) : Bool :=
  match sign with
  | .slot mark => space.shows mark bytes
  | .any => decide (0 < space.hits bytes)

theorem on_eq_false (tidy : marks.Tidy) (clean : marks.hasMarks = false) :
    sign.on marks = false := by
  cases sign with
  | slot mark => exact tidy.has_of_not_hasMarks clean mark
  | any => exact clean

theorem shownBy_eq_false {bytes : Bytes} (short : bytes.length < space.gramLength) :
    sign.shownBy space bytes = false := by
  cases sign with
  | slot mark => exact Space.shows_eq_false short
  | any => simp [shownBy, Space.hits_eq_zero short]

theorem shownBy_append {overlap : Nat} (first second : Bytes)
    (length : space.gramLength = overlap + 1) :
    sign.shownBy space (first ++ second) = (sign.shownBy space first ||
      sign.shownBy space (Bytes.lastBytes overlap first ++ second)) := by
  cases sign with
  | slot mark => exact Space.shows_append first second length
  | any =>
    rw [shownBy, shownBy, shownBy, Space.hits_append first second length, ← Bool.decide_or]
    exact decide_eq_decide.2 (by omega)

/-! ## One window -/

/-- Whether an n-gram with a slot shows a sign. -/
def meets (sign : Sign) (bit : Nat) : Bool :=
  match sign with
  | .slot mark => decide (bit = mark)
  | .any => true

/-- Setting a bit adds the signs that its n-gram shows. -/
theorem on_set {bit : Nat} {after : MarkSet} (setting : marks.set bit = .ok after) :
    sign.on after = (sign.on marks || sign.meets bit) := by
  cases sign with
  | slot mark =>
    by_cases inside : bit / 64 < marks.size
    · rcases MarkSet.set_eq_ok inside with ⟨other, same, -, has, -⟩
      cases setting.symm.trans same
      exact has mark
    · rw [MarkSet.set, if_neg inside] at setting
      cases setting
  | any => exact (MarkSet.hasMarks_of_set setting).trans (Bool.or_true _).symm

theorem shownBy_of_none {byte : UInt8} {rest : Bytes}
    (long : space.gramLength ≤ (byte :: rest).length)
    (looked : space.slot? ((byte :: rest).take space.gramLength) = .ok none) :
    sign.shownBy space (byte :: rest) = sign.shownBy space rest := by
  cases sign with
  | slot mark => simp [shownBy, Space.shows_cons long, looked]
  | any => simp [shownBy, Space.hits_cons long, Space.numbers, looked]

/-- A byte string shows what its first window shows and what it shows behind its first byte. -/
theorem shownBy_of_some {bit : Nat} {byte : UInt8} {rest : Bytes}
    (long : space.gramLength ≤ (byte :: rest).length)
    (looked : space.slot? ((byte :: rest).take space.gramLength) = .ok (some bit)) :
    sign.shownBy space (byte :: rest) = (sign.meets bit || sign.shownBy space rest) := by
  cases sign with
  | slot mark => simp [shownBy, meets, Space.shows_cons long, looked]
  | any => simp [shownBy, meets, Space.hits_cons long, Space.numbers, looked]

end Sign

namespace MarkSet

variable {marks : MarkSet}

/-- Marking a chunk adds the signs that it shows and counts its windows with a slot. -/
theorem mark_shows {space : Space} (made : space.Made) (fits : space.slots ≤ marks.size * 64)
    (chunk : Bytes) :
    ∃ after, marks.mark space chunk = (after, .ok (space.hits chunk)) ∧
      after.size = marks.size ∧
      (∀ sign : Sign, sign.on after = (sign.on marks || sign.shownBy space chunk)) ∧
      (marks.Tidy → after.Tidy) := by
  rcases mark_eq_ok made fits chunk with ⟨after, count, run, size, has, tidy⟩
  rcases hits_of_markFrom run with ⟨rfl, some⟩
  rw [Nat.zero_add] at run
  refine ⟨after, run, size, ?_, tidy⟩
  intro sign
  cases sign with
  | slot mark => exact has mark
  | any => exact some

end MarkSet

end GramCensus
