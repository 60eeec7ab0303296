/-!
# Stable sorting

A merge sort by structural recursion, so that a closed sort can be evaluated by the kernel. It is
`List.mergeSort` as a function (`stableSort_eq_mergeSort`), which brings the library's facts along:
the result is a permutation, it is sorted, and elements that the order does not tell apart keep
their places.
-/

namespace GramCensus

variable {α : Type}

/-- Merges `x :: xs` into a list, where `mergeRest` merges `xs`. -/
private def mergeFrom (le : α → α → Bool) (x : α) (xs : List α) (mergeRest : List α → List α) :
    List α → List α
  | [] => x :: xs
  | y :: ys => if le x y then x :: mergeRest (y :: ys) else y :: mergeFrom le x xs mergeRest ys

/-- Merges two sorted lists. Of two elements that the order does not tell apart, the one from the
first list comes first. -/
def mergeSorted (le : α → α → Bool) : List α → List α → List α
  | [] => fun ys => ys
  | x :: xs => mergeFrom le x xs (mergeSorted le xs)

/-- Halves a list of two or more elements, sorts the halves and merges them, at most `rounds`
times over; the length of the list is always enough. -/
def sortRounds (le : α → α → Bool) : Nat → List α → List α
  | 0, xs => xs
  | rounds + 1, xs =>
    if xs.length < 2 then xs
    else
      let middle := (xs.length + 1) / 2
      mergeSorted le (sortRounds le rounds (xs.take middle)) (sortRounds le rounds (xs.drop middle))

/-- Sorts a list. Elements that the order does not tell apart keep their order. -/
def stableSort (le : α → α → Bool) (xs : List α) : List α :=
  sortRounds le xs.length xs

private theorem mergeFrom_eq_merge (le : α → α → Bool) (x : α) (xs ys : List α) :
    mergeFrom le x xs (fun zs => xs.merge zs le) ys = (x :: xs).merge ys le := by
  induction ys with
  | nil => simp [mergeFrom]
  | cons y ys ih => rw [mergeFrom, List.cons_merge_cons, ih]

theorem mergeSorted_eq_merge (le : α → α → Bool) (xs ys : List α) :
    mergeSorted le xs ys = xs.merge ys le := by
  induction xs generalizing ys with
  | nil => simp [mergeSorted]
  | cons x xs ih =>
    have tail : mergeSorted le xs = fun zs => xs.merge zs le := funext ih
    rw [mergeSorted, tail, mergeFrom_eq_merge]

/-- A list of two or more elements is sorted by sorting its halves. -/
private theorem mergeSort_halves (le : α → α → Bool) {xs : List α} (long : 2 ≤ xs.length) :
    xs.mergeSort le = ((xs.take ((xs.length + 1) / 2)).mergeSort le).merge
      ((xs.drop ((xs.length + 1) / 2)).mergeSort le) le := by
  match xs, long with
  | _ :: _ :: _, _ => rw [List.mergeSort]; simp

private theorem sortRounds_eq_mergeSort (le : α → α → Bool) (rounds : Nat) :
    ∀ xs : List α, xs.length ≤ rounds → sortRounds le rounds xs = xs.mergeSort le := by
  induction rounds with
  | zero => intro xs enough; simp [sortRounds, List.length_eq_zero_iff.1 (Nat.le_zero.1 enough)]
  | succ rounds ih =>
    intro xs enough
    rw [sortRounds]
    split
    case isTrue short =>
      match xs, short with
      | [], _ => rw [List.mergeSort_nil]
      | [x], _ => rw [List.mergeSort_singleton]
    case isFalse long =>
      have first := ih (xs.take ((xs.length + 1) / 2)) (by rw [List.length_take]; omega)
      have second := ih (xs.drop ((xs.length + 1) / 2)) (by rw [List.length_drop]; omega)
      rw [mergeSort_halves le (by omega), ← first, ← second, ← mergeSorted_eq_merge]

/-- The structural sort is the library's stable merge sort. -/
theorem stableSort_eq_mergeSort (le : α → α → Bool) (xs : List α) :
    stableSort le xs = xs.mergeSort le :=
  sortRounds_eq_mergeSort le xs.length xs (Nat.le_refl _)

/-- Sorting rearranges the elements. -/
theorem stableSort_perm (le : α → α → Bool) (xs : List α) : (stableSort le xs).Perm xs := by
  rw [stableSort_eq_mergeSort]
  exact List.mergeSort_perm xs le

@[simp] theorem mem_stableSort {le : α → α → Bool} {xs : List α} {x : α} :
    x ∈ stableSort le xs ↔ x ∈ xs :=
  (stableSort_perm le xs).mem_iff

@[simp] theorem length_stableSort (le : α → α → Bool) (xs : List α) :
    (stableSort le xs).length = xs.length :=
  (stableSort_perm le xs).length_eq

end GramCensus
