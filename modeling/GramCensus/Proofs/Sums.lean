import Mathlib.Algebra.GroupWithZero.Nat
import GramCensus.Sums

/-!
# Sums with a term replaced

A state of several workers or threads is a list, and what they have between them is a sum over it. A
step of one of them replaces one term (`sum_map_set`).
-/

namespace GramCensus

variable {α : Type} {f g : α → Nat} {xs : List α} {k : Nat} {before after : α}

theorem sumOf_eq_sum (numbers : List Nat) : sumOf numbers = numbers.sum := rfl

/-- A sum of which one term is replaced, and the others stay what they were. -/
theorem sum_map_set (found : xs[k]? = some before)
    (agree : ∀ j x, j ≠ k → xs[j]? = some x → g x = f x) :
    ((xs.set k after).map g).sum + f before = (xs.map f).sum + g after := by
  induction xs generalizing k with
  | nil => cases found
  | cons x rest ih =>
    cases k with
    | zero =>
      obtain rfl : x = before := Option.some.inj found
      have same : rest.map g = rest.map f := by
        apply List.map_congr_left
        intro y member
        rcases List.getElem?_of_mem member with ⟨j, place⟩
        exact agree (j + 1) y (by omega) place
      simp only [List.set_cons_zero, List.map_cons, List.sum_cons, same]
      omega
    | succ k =>
      have tail := ih found fun j y other place => agree (j + 1) y (by omega) place
      have head := agree 0 x (by omega) rfl
      simp only [List.set_cons_succ, List.map_cons, List.sum_cons, head]
      omega

/-- A sum of ones counts. -/
theorem sum_map_toNat (p : α → Bool) (xs : List α) :
    (xs.map fun x => (p x).toNat).sum = xs.countP p := by
  induction xs with
  | nil => rfl
  | cons x rest ih =>
    rw [List.map_cons, List.sum_cons, ih, List.countP_cons, Nat.add_comm]
    cases p x <;> rfl

theorem le_sum_map (found : xs[k]? = some before) : f before ≤ (xs.map f).sum := by
  induction xs generalizing k with
  | nil => cases found
  | cons x rest ih =>
    rw [List.map_cons, List.sum_cons]
    cases k with
    | zero =>
      obtain rfl : x = before := Option.some.inj found
      exact Nat.le_add_right _ _
    | succ k => exact Nat.le_trans (ih found) (Nat.le_add_left _ _)

/-- Two terms at different places are not more than the sum. -/
theorem add_le_sum_map {j : Nat} {other : α} (found : xs[k]? = some before)
    (second : xs[j]? = some other) (different : j ≠ k) :
    f before + f other ≤ (xs.map f).sum := by
  induction xs generalizing j k with
  | nil => cases found
  | cons x rest ih =>
    rw [List.map_cons, List.sum_cons]
    match k, j with
    | 0, 0 => exact absurd rfl different
    | 0, j + 1 =>
      obtain rfl : x = before := Option.some.inj found
      exact Nat.add_le_add_left (@le_sum_map α f rest j other second) _
    | k + 1, 0 =>
      obtain rfl : x = other := Option.some.inj second
      rw [Nat.add_comm]
      exact Nat.add_le_add_left (@le_sum_map α f rest k before found) _
    | k + 1, j + 1 =>
      exact Nat.le_trans (ih found second (by omega)) (Nat.le_add_left _ _)

end GramCensus
