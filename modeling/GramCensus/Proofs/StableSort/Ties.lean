import GramCensus.StableSort

/-!
# Order and ties in a stable sort

A stable sort brings elements into order and keeps the order that tied elements came in. So a list
that is in some order to begin with is, after sorting, in the sort's order first and in its own
order where the sort leaves a tie (`pairwise_stableSort_of_pairwise`).
-/

namespace GramCensus

variable {α : Type} (le : α → α → Bool)

theorem pairwise_stableSort (trans : ∀ a b c, le a b = true → le b c = true → le a c = true)
    (total : ∀ a b, (le a b || le b a) = true) (xs : List α) :
    (stableSort le xs).Pairwise fun a b => le a b = true := by
  rw [stableSort_eq_mergeSort]
  exact List.pairwise_mergeSort trans total xs

theorem pairwise_zipIdx_lt (xs : List α) (start : Nat) :
    (xs.zipIdx start).Pairwise fun a b => a.2 < b.2 := by
  have positions : ((xs.zipIdx start).map (·.2)).Pairwise (· < ·) := by
    rw [List.zipIdx_map_snd]
    exact List.pairwise_lt_range'
  exact List.pairwise_map.1 positions

/-- Positions tell the elements of a list apart and know the order that the list is in. -/
private theorem pairwise_zipIdx_of_pairwise {r : α → α → Prop} {xs : List α}
    (ordered : xs.Pairwise r) {a b : α × Nat} (first : a ∈ xs.zipIdx) (second : b ∈ xs.zipIdx)
    (before : a.2 < b.2) : r a.1 b.1 := by
  have atFirst := List.mem_zipIdx_iff_getElem?.1 first
  have atSecond := List.mem_zipIdx_iff_getElem?.1 second
  rcases List.getElem?_eq_some_iff.1 atFirst with ⟨inFirst, valueFirst⟩
  rcases List.getElem?_eq_some_iff.1 atSecond with ⟨inSecond, valueSecond⟩
  rw [← valueFirst, ← valueSecond]
  exact List.pairwise_iff_getElem.1 ordered a.2 b.2 inFirst inSecond before

/-- A list that is in some order is sorted with ties in that order. -/
theorem pairwise_stableSort_of_pairwise
    (trans : ∀ a b c, le a b = true → le b c = true → le a c = true)
    (total : ∀ a b, (le a b || le b a) = true) {r : α → α → Prop} {xs : List α}
    (ordered : xs.Pairwise r) :
    (stableSort le xs).Pairwise fun a b => le a b = true ∧ (le b a = true → r a b) := by
  rw [stableSort_eq_mergeSort, ← List.mergeSort_zipIdx, List.pairwise_map]
  have permuted := List.mergeSort_perm xs.zipIdx (List.zipIdxLE le)
  have sorted := List.pairwise_mergeSort (List.zipIdxLE_trans trans)
    (List.zipIdxLE_total total) xs.zipIdx
  -- With positions at hand there are no ties, and the sort is one by both keys.
  have distinct : (xs.zipIdx.mergeSort (List.zipIdxLE le)).Pairwise fun a b => a.2 ≠ b.2 := by
    refine permuted.symm.pairwise ?_ fun differ => Ne.symm differ
    exact (pairwise_zipIdx_lt xs 0).imp fun before => Nat.ne_of_lt before
  refine (sorted.and distinct).imp_of_mem fun {a b} first second ⟨inOrder, differ⟩ => ?_
  have first := permuted.mem_iff.1 first
  have second := permuted.mem_iff.1 second
  rw [List.zipIdxLE] at inOrder
  split at inOrder
  case isFalse => cases inOrder
  case isTrue le_ab =>
    refine ⟨le_ab, ?_⟩
    intro le_ba
    rw [if_pos le_ba] at inOrder
    exact pairwise_zipIdx_of_pairwise ordered first second
      (Nat.lt_of_le_of_ne (of_decide_eq_true inOrder) differ)

end GramCensus
