/-!
# Sums

The sum of a list of numbers, for everything that adds up sizes and counts.
-/

namespace GramCensus

/-- The sum of some numbers. -/
def sumOf (numbers : List Nat) : Nat :=
  numbers.foldr (fun number sum => number + sum) 0

@[simp] theorem sumOf_nil : sumOf [] = 0 := rfl

@[simp] theorem sumOf_cons (number : Nat) (numbers : List Nat) :
    sumOf (number :: numbers) = number + sumOf numbers := rfl

@[simp] theorem sumOf_append (first second : List Nat) :
    sumOf (first ++ second) = sumOf first + sumOf second := by
  induction first with
  | nil => simp
  | cons number first ih => simp [ih, Nat.add_assoc]

end GramCensus
