import Mathlib.Data.List.Sort
import GramCensus.Proofs.Tally.Selection

/-!
# The most frequent n-grams of a tally

Where no counter lies past the last slot, the `k` most frequent n-grams of a tally are a selection
from all slots in order (`Tally.top_cases`), unless some stem was never seen with another byte
behind it.
-/

namespace GramCensus

namespace Tally

variable {tally : Tally}

/-! ## Counters that are not zero -/

theorem mem_nonzero_iff {pair : Nat × UInt32} :
    pair ∈ tally.nonzero ↔ pair.2 ≠ 0 ∧ tally.count pair.1 = pair.2 := by
  rcases pair with ⟨slot, count⟩
  rw [nonzero, List.mem_filter, Std.TreeMap.mem_toList_iff_getElem?_eq_some, Tally.count,
    Std.TreeMap.getD_eq_getD_getElem?]
  constructor
  · rintro ⟨stored, other⟩
    exact ⟨by simpa using other, by simp [stored]⟩
  · rintro ⟨other, same⟩
    refine ⟨?_, by simpa using other⟩
    cases stored : tally.cells[slot]? with
    | none =>
      rw [stored] at same
      exact absurd same.symm other
    | some held =>
      rw [stored] at same
      exact congrArg some same

theorem pairwise_nonzero (tally : Tally) : tally.nonzero.Pairwise fun a b => a.1 < b.1 := by
  have ordered : tally.cells.toList.Pairwise fun a b => a.1 < b.1 := by
    simpa only [Nat.compare_eq_lt] using @Std.TreeMap.ordered_keys_toList _ _ _ tally.cells _
  exact ordered.filter _

/-- The slots of a space with their counters, in order. -/
def slotCounts (tally : Tally) : List (Nat × UInt32) :=
  (List.range tally.space.slots).map fun slot => (slot, tally.count slot)

/-- Slots whose counter is zero are all that is left out. -/
theorem filter_slotCounts (tally : Tally) :
    (tally.slotCounts.filter fun pair => pair.2 ≠ 0) =
      tally.nonzero.filter fun pair => pair.1 < tally.space.slots := by
  have ascending : tally.slotCounts.Pairwise fun a b => a.1 < b.1 :=
    List.pairwise_map.2 List.pairwise_lt_range
  have antisymmetric : Std.Antisymm fun a b : Nat × UInt32 => a.1 < b.1 :=
    ⟨fun a b less more => absurd less (Nat.lt_asymm more)⟩
  have irreflexive : Std.Irrefl fun a b : Nat × UInt32 => a.1 < b.1 :=
    ⟨fun a => Nat.lt_irrefl a.1⟩
  -- Two ascending lists with the same members are the same.
  refine List.Pairwise.eq_of_mem_iff (ascending.filter _) ((pairwise_nonzero tally).filter _) ?_
  intro pair
  rcases pair with ⟨slot, count⟩
  simp only [List.mem_filter, mem_nonzero_iff, slotCounts, List.mem_map, List.mem_range]
  constructor
  · rintro ⟨⟨other, small, same⟩, counted⟩
    cases same
    exact ⟨⟨by simpa using counted, rfl⟩, by simpa using small⟩
  · rintro ⟨⟨counted, rfl⟩, small⟩
    exact ⟨⟨slot, by simpa using small, rfl⟩, by simpa using counted⟩

/-! ## The cutoff of a tally -/

/-- Every counter belongs to a slot. -/
def Contained (tally : Tally) : Prop :=
  ∀ slot, tally.space.slots ≤ slot → tally.count slot = 0

theorem Contained.filter_nonzero (contained : tally.Contained) :
    (tally.nonzero.filter fun pair => pair.1 < tally.space.slots) = tally.nonzero := by
  apply List.filter_eq_self.2
  intro pair member
  rcases mem_nonzero_iff.1 member with ⟨other, counted⟩
  have small : ¬ tally.space.slots ≤ pair.1 := fun large =>
    other (counted.symm.trans (contained pair.1 large))
  simpa using small

theorem countP_counts {p : UInt32 → Bool} (several : ∀ count, p count = true → 1 < count)
    (pairs : List (Nat × UInt32)) :
    (((pairs.map (·.2)).filter fun count => 1 < count).countP p) =
      pairs.countP fun pair => p pair.2 := by
  rw [List.countP_filter, List.countP_map]
  apply List.countP_congr
  intro pair _
  constructor
  · intro both
    exact (Bool.and_eq_true_iff.1 both).1
  · intro holds
    exact Bool.and_eq_true_iff.2 ⟨holds, decide_eq_true (several _ holds)⟩

/-- What the cutoff of a tally admits of its counters is a selection of slots. -/
theorem selection_of_fills (contained : tally.Contained) {least : UInt32} {budget k : Nat}
    (fills : 1 < least ∧
        (((tally.nonzero.map (·.2)).filter fun count => 1 < count).countP
          fun count => least < count) + budget = k ∧
        budget ≤ (((tally.nonzero.map (·.2)).filter fun count => 1 < count).countP
          fun count => count = least) ∨
      least = 1 ∧ budget = 0 ∧
        (((tally.nonzero.map (·.2)).filter fun count => 1 < count).countP
          fun count => 1 < count) ≤ k) :
    Selection (fun pair : Nat × UInt32 => pair.2.toNat) k tally.slotCounts
      (admitted least budget tally.nonzero) := by
  have selection : Selection (fun pair : Nat × UInt32 => pair.2.toNat) k tally.nonzero
      (admitted least budget tally.nonzero) := by
    apply (admits_admitted least budget tally.nonzero).selection
    rcases fills with ⟨two, size, enough⟩ | ⟨one, spent, few⟩
    · left
      rw [countP_counts (by simpa using fun count => UInt32.lt_trans two)] at size
      rw [countP_counts (by simpa using two)] at enough
      exact ⟨two, size, enough⟩
    · right
      rw [countP_counts (by simp)] at few
      exact ⟨one, spent, few⟩
  -- The slots that are not among the counters were met by no file.
  rw [← contained.filter_nonzero, ← filter_slotCounts] at selection
  rw [← contained.filter_nonzero, ← filter_slotCounts]
  apply selection.of_filter
  intro pair _ twice
  have other : pair.2 ≠ 0 := by
    intro zero
    rw [zero] at twice
    cases twice
  simpa using other

/-- The `k` most frequent n-grams are those of a selection of slots, unless there is a stem that was
never seen with another byte behind it. -/
theorem top_cases (contained : tally.Contained) (k : Nat) :
    ∃ chosen, Selection (fun pair : Nat × UInt32 => pair.2.toNat) k tally.slotCounts chosen ∧
      (∀ stem, tally.unseenStem? = some stem → tally.top k = .error (.unseenStem stem)) ∧
      (tally.unseenStem? = none → tally.top k = .ok (materialize tally.space chosen)) := by
  have several : ∀ count ∈ (tally.nonzero.map (·.2)).filter fun count => 1 < count,
      1 < count := by
    intro count member
    exact of_decide_eq_true (List.mem_filter.1 member).2
  rw [top]
  generalize least_eq : tally.histogram.cutoff tally.histogram.total k = least
  generalize budget_eq : (if tally.histogram.total < k then 0
    else k - tally.histogram.above least) = budget
  have fills := tally.weighs_histogram.fills several least_eq budget_eq
  -- A cutoff is never zero, so slots without a counter are not looked at.
  have positive : least ≠ 0 := by
    rintro rfl
    rcases fills with ⟨zero, -⟩ | ⟨zero, -⟩ <;> cases zero
  have taken : tally.candidates least budget = tally.nonzero := by
    simp only [candidates, if_neg positive, contained.filter_nonzero]
  refine ⟨admitted least budget tally.nonzero, selection_of_fills contained fills, ?_, ?_⟩
  · intro stem unseen
    simp only [select, unseen]
  · intro seen
    simp only [select, seen, taken]

end Tally

end GramCensus
