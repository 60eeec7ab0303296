import Mathlib.Data.List.Count
import Mathlib.Data.List.Nodup

/-!
# The first element that is repeated

Where a list is searched for an element that occurs twice, group by group in some order, the search
finds the first of them in that order (`FirstRepeated`), or nothing where no element occurs twice
(`FindsRepeated`). What is found in a list is put together from what is found in its parts, as long
as these stand in order (`FindsRepeated.append`, `FindsRepeated.findSome?`).
-/

namespace GramCensus

variable {α β : Type}

/-- The image of the first element with a property, found in one search. -/
theorem findSome?_ite (p : β → Prop) [DecidablePred p] (f : β → α) (xs : List β) :
    (xs.findSome? fun x => if p x then some (f x) else none) = (xs.find? fun x => p x).map f := by
  rw [List.find?_eq_findSome?_guard, List.map_findSome?]
  congr 1
  funext x
  by_cases here : p x <;> simp [Option.guard, here]

variable [DecidableEq α] {before : α → α → Prop}

/-- An element that occurs more than once, before all others that do. -/
structure FirstRepeated (before : α → α → Prop) (xs : List α) (x : α) : Prop where
  repeated : 1 < xs.count x
  first : ∀ y, 1 < xs.count y → y ≠ x → before x y

/-- Only one element comes before all others. -/
theorem FirstRepeated.unique (asymm : ∀ x y, before x y → ¬ before y x) {xs : List α} {x y : α}
    (first : FirstRepeated before xs x) (other : FirstRepeated before xs y) : x = y := by
  by_contra differ
  exact asymm x y (first.first y other.repeated (Ne.symm differ)) (other.first x first.repeated differ)

/-- What a search for the first repeated element finds: this element, or nothing where all elements are
different. -/
def FindsRepeated (before : α → α → Prop) (xs : List α) : Option α → Prop
  | none => xs.Nodup
  | some x => FirstRepeated before xs x

/-- A repeated element stands in the list. -/
theorem mem_of_one_lt_count {xs : List α} {x : α} (repeated : 1 < xs.count x) : x ∈ xs :=
  List.count_pos_iff.1 (by omega)

theorem not_nodup_of_one_lt_count {xs : List α} {x : α} (repeated : 1 < xs.count x) : ¬ xs.Nodup :=
  fun distinct => absurd (List.nodup_iff_count_le_one.1 distinct x) (by omega)

namespace FindsRepeated

variable {xs ys : List α} {found foundBehind : Option α}

/-- Nothing is found exactly where all elements are different. -/
theorem eq_none_iff (finds : FindsRepeated before xs found) : found = none ↔ xs.Nodup := by
  cases found with
  | none => exact iff_of_true rfl finds
  | some x => exact iff_of_false nofun (not_nodup_of_one_lt_count finds.repeated)

/-- Searches of one list find the same. -/
theorem unique (asymm : ∀ x y, before x y → ¬ before y x) (finds : FindsRepeated before xs found)
    (other : FindsRepeated before xs foundBehind) : found = foundBehind := by
  cases found with
  | none => exact (other.eq_none_iff.2 finds).symm
  | some x =>
    cases foundBehind with
    | none => exact absurd other (not_nodup_of_one_lt_count finds.repeated)
    | some y => exact congrArg some (FirstRepeated.unique asymm finds other)

/-- What is found does not depend on the order of the list. -/
theorem of_perm (perm : xs.Perm ys) (finds : FindsRepeated before xs found) :
    FindsRepeated before ys found := by
  cases found with
  | none => exact perm.nodup_iff.1 finds
  | some x =>
    refine ⟨by rw [← perm.count_eq]; exact finds.repeated, fun y repeated differs => ?_⟩
    rw [← perm.count_eq] at repeated
    exact finds.first y repeated differs

/-- What is found is found in the images of the elements as well, where they stand in the same order. -/
theorem map {γ : Type} [DecidableEq γ] {beforeImage : γ → γ → Prop} {image : α → γ}
    (injective : Function.Injective image) (keeps : ∀ x y, before x y → beforeImage (image x) (image y))
    (finds : FindsRepeated before xs found) :
    FindsRepeated beforeImage (xs.map image) (found.map image) := by
  cases found with
  | none => exact List.Nodup.map injective finds
  | some x =>
    refine ⟨?_, fun z repeated differs => ?_⟩
    · rw [List.count_map_of_injective _ _ injective]
      exact finds.repeated
    · rcases List.mem_map.1 (mem_of_one_lt_count repeated) with ⟨y, -, rfl⟩
      rw [List.count_map_of_injective _ _ injective] at repeated
      exact keeps x y (finds.first y repeated fun same => differs (congrArg image same))

/-- A list in two parts of which the first is before the second is searched part by part. -/
theorem append (irrefl : ∀ x, ¬ before x x) (apart : ∀ x ∈ xs, ∀ y ∈ ys, before x y)
    (finds : FindsRepeated before xs found) (findsBehind : FindsRepeated before ys foundBehind) :
    FindsRepeated before (xs ++ ys) (found.or foundBehind) := by
  -- No element stands in both parts, so it is repeated where it is repeated in its own part.
  have disjoint : ∀ x ∈ xs, x ∉ ys := fun x inFirst inSecond => irrefl x (apart x inFirst x inSecond)
  cases found with
  | some x =>
    refine ⟨by rw [List.count_append]; exact Nat.lt_add_right _ finds.repeated, fun y repeated differs => ?_⟩
    by_cases inFirst : y ∈ xs
    · rw [List.count_append, List.count_eq_zero.2 (disjoint y inFirst), Nat.add_zero] at repeated
      exact finds.first y repeated differs
    · rcases List.mem_append.1 (mem_of_one_lt_count repeated) with inFirst' | inSecond
      · exact absurd inFirst' inFirst
      · exact apart x (mem_of_one_lt_count finds.repeated) y inSecond
  | none =>
    cases foundBehind with
    | none =>
      refine List.nodup_append.2 ⟨finds, findsBehind, fun x inFirst y inSecond same => ?_⟩
      exact disjoint x inFirst (same ▸ inSecond)
    | some x =>
      have single := List.nodup_iff_count_le_one.1 finds
      refine ⟨?_, fun y repeated differs => ?_⟩
      · rw [List.count_append]
        exact Nat.lt_add_left _ findsBehind.repeated
      · by_cases inFirst : y ∈ xs
        · rw [List.count_append, List.count_eq_zero.2 (disjoint y inFirst), Nat.add_zero] at repeated
          exact absurd (single y) (by omega)
        · rw [List.count_append, List.count_eq_zero.2 inFirst, Nat.zero_add] at repeated
          exact findsBehind.first y repeated differs

/-- Groups that stand in order are searched one after the other. -/
theorem findSome? (irrefl : ∀ x, ¬ before x x) {elements : β → List α} {find : β → Option α}
    {groups : List β} (each : ∀ group ∈ groups, FindsRepeated before (elements group) (find group))
    (apart : groups.Pairwise fun a b => ∀ x ∈ elements a, ∀ y ∈ elements b, before x y) :
    FindsRepeated before (groups.flatMap elements) (groups.findSome? find) := by
  induction groups with
  | nil => exact List.nodup_nil
  | cons group groups ih =>
    rcases List.forall_mem_cons.1 each with ⟨first, others⟩
    rcases List.pairwise_cons.1 apart with ⟨leads, apartBehind⟩
    have behind := ih others apartBehind
    have together := first.append irrefl (fun x inFirst y inOthers => by
      rcases List.mem_flatMap.1 inOthers with ⟨other, listed, inOther⟩
      exact leads other listed x inFirst y inOther) behind
    rw [List.flatMap_cons, List.findSome?_cons]
    cases found : find group with
    | none => rwa [found, Option.none_or] at together
    | some x => rwa [found, Option.some_or] at together

/-- A group of equal elements repeats its element where it has more than one. -/
theorem of_alike {x : α} (alike : ∀ y ∈ xs, y = x) :
    FindsRepeated before xs (if 1 < xs.length then some x else none) := by
  have counted : xs.count x = xs.length := List.count_eq_length.2 fun y member => (alike y member).symm
  split
  case isTrue several =>
    refine ⟨by rwa [counted], fun y repeated differs => ?_⟩
    exact absurd (alike y (mem_of_one_lt_count repeated)) differs
  case isFalse few =>
    refine List.nodup_iff_count_le_one.2 fun y => ?_
    exact Nat.le_trans List.count_le_length (Nat.le_of_not_lt few)

end FindsRepeated

end GramCensus
