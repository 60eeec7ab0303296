import GramCensus.Proofs.Space.Slots

/-!
# The n-grams of a space in order

The n-grams of a space, listed by their slots, are the extensions of its stems by every byte: of the
stems of a trie in the order of their numbers, or, for three bytes, of all byte strings of two
(`Space.grams`). So the n-gram at a position of this list is the one that the slot stands for
(`Space.getElem?_grams`), and no n-gram is listed twice.
-/

namespace GramCensus

/-! ## Extensions -/

/-- The extensions of some stems by one byte, all of the first stem first, by ascending byte. -/
def extended (stems : List Bytes) : List Bytes :=
  stems.flatMap fun stem => allBytes.map fun byte => stem ++ [byte]

theorem extended_cons (stem : Bytes) (stems : List Bytes) :
    extended (stem :: stems) = (allBytes.map fun byte => stem ++ [byte]) ++ extended stems :=
  List.flatMap_cons

theorem mem_extended {stems : List Bytes} {gram : Bytes} :
    gram ∈ extended stems ↔ ∃ stem ∈ stems, ∃ byte, stem ++ [byte] = gram := by
  simp [extended, mem_allBytes]

theorem length_extended (stems : List Bytes) : (extended stems).length = stems.length * 256 := by
  induction stems with
  | nil => rfl
  | cons stem rest ih =>
    rw [extended_cons, List.length_append, List.length_map, length_allBytes, ih, List.length_cons]
    omega

/-- Different stems have different extensions. -/
theorem nodup_extended {stems : List Bytes} (distinct : stems.Nodup) : (extended stems).Nodup := by
  apply List.nodup_flatMap.2
  constructor
  · intro stem _
    apply nodup_allBytes.map
    intro a b same
    exact List.singleton_inj.1 (List.append_cancel_left same)
  · refine distinct.imp fun {first second} differ => ?_
    intro gram inFirst inSecond
    rcases List.mem_map.1 inFirst with ⟨a, -, rfl⟩
    rcases List.mem_map.1 inSecond with ⟨b, -, same⟩
    exact differ (List.append_inj_left' same rfl).symm

/-- The stem of an extension is found by a division by 256, and its last byte by the remainder. -/
theorem getElem?_extended (stems : List Bytes) (slot : Nat) :
    (extended stems)[slot]? = stems[slot / 256]?.map fun stem => stem ++ [slot.toUInt8] := by
  induction stems generalizing slot with
  | nil => simp [extended]
  | cons stem rest ih =>
    have first : (allBytes.map fun byte => stem ++ [byte]).length = 256 := by
      rw [List.length_map, length_allBytes]
    rw [extended_cons]
    by_cases small : slot < 256
    · -- The slots of the first stem are those of the bytes.
      have zero : slot / 256 = 0 := by omega
      rw [List.getElem?_append_left (by omega), zero]
      simp [allBytes, small]
    · -- Behind them all slots are those of the other stems, moved by 256.
      have next : slot / 256 = (slot - 256) / 256 + 1 := by omega
      have last : (slot - 256).toUInt8 = slot.toUInt8 := by
        apply Space.toUInt8_eq
        rw [show slot.toUInt8.toNat = slot % 256 from UInt8.toNat_ofNat']
        omega
      rw [List.getElem?_append_right (by omega), first, ih, last, next, List.getElem?_cons_succ]

namespace Space

variable {space : Space}

/-! ## All n-grams -/

/-- All n-grams of three bytes, ascending. -/
def allTrigrams : List Bytes :=
  extended (extended (extended [[]]))

/-- The n-grams of a space, in the order of their slots. -/
def grams : Space → List Bytes
  | .trigrams => allTrigrams
  | .extensions trie => extended (trie.stems.map (·.2))

theorem mem_allTrigrams {gram : Bytes} : gram ∈ allTrigrams ↔ gram.length = 3 := by
  rw [allTrigrams, mem_extended]
  constructor
  · rintro ⟨two, memberTwo, c, rfl⟩
    rcases mem_extended.1 memberTwo with ⟨one, memberOne, b, rfl⟩
    rcases mem_extended.1 memberOne with ⟨empty, memberEmpty, a, rfl⟩
    rw [List.mem_singleton.1 memberEmpty]
    rfl
  · intro width
    rcases List.length_eq_three.1 width with ⟨a, b, c, rfl⟩
    have one : [a] ∈ extended [[]] := mem_extended.2 ⟨[], List.mem_singleton_self [], a, rfl⟩
    have two : [a, b] ∈ extended (extended [[]]) := mem_extended.2 ⟨[a], one, b, rfl⟩
    exact ⟨[a, b], two, c, rfl⟩

theorem getElem?_allTrigrams {slot : Nat} (small : slot < trigramSlots) :
    allTrigrams[slot]? = some (trigram slot) := by
  have first : slot / 256 / 256 / 256 = 0 := by
    rw [trigramSlots] at small
    omega
  have high : slot >>> 16 = slot / 256 / 256 := by omega
  have middle : slot >>> 8 = slot / 256 := by omega
  rw [allTrigrams, getElem?_extended, getElem?_extended, getElem?_extended, first, trigram, high,
    middle]
  rfl

theorem Made.length_grams (made : space.Made) : space.grams.length = space.slots := by
  cases space with
  | trigrams =>
    rw [grams, allTrigrams, length_extended, length_extended, length_extended]
    rfl
  | extensions trie =>
    rcases made.spans with ⟨stems, spans⟩
    rw [grams, length_extended, slots, spans.stemCount_eq, spans.stems_eq, List.length_map,
      List.length_map, List.length_zipIdx]

/-- A slot stands for the n-gram at its position. -/
theorem getElem?_grams {slot : Nat} (small : slot < space.slots) :
    space.grams[slot]? = space.gram? slot := by
  cases space with
  | trigrams => exact getElem?_allTrigrams small
  | extensions trie => rw [grams, getElem?_extended, gram?, gramFrom?, stems, List.getElem?_toArray]

theorem Made.length_of_mem_grams (made : space.Made) {gram : Bytes} (listed : gram ∈ space.grams) :
    gram.length = space.gramLength := by
  rcases List.getElem?_of_mem listed with ⟨slot, place⟩
  have small : slot < space.slots := by
    rw [← made.length_grams]
    exact (List.getElem?_eq_some_iff.1 place).1
  rw [getElem?_grams small] at place
  exact length_of_gramFrom?_stems place

/-- The slot of an n-gram is its position. -/
theorem Made.slot?_of_getElem? (made : space.Made) {gram : Bytes} {slot : Nat}
    (place : space.grams[slot]? = some gram) : space.slot? gram = .ok (some slot) := by
  have small : slot < space.slots := by
    rw [← made.length_grams]
    exact (List.getElem?_eq_some_iff.1 place).1
  apply (made.slot?_eq_some_iff (made.length_of_mem_grams (List.mem_of_getElem? place))).2
  exact ⟨small, by rwa [← getElem?_grams small]⟩

theorem Made.nodup_grams (made : space.Made) : space.grams.Nodup := by
  rw [List.nodup_iff_getElem?_ne_getElem?]
  intro i j before inside same
  have second := List.getElem?_eq_getElem inside
  have atSecond := made.slot?_of_getElem? second
  rw [second] at same
  have atFirst := made.slot?_of_getElem? same
  rw [atFirst] at atSecond
  cases atSecond
  exact Nat.lt_irrefl i before

end Space

end GramCensus
