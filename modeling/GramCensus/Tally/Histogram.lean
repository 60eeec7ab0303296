import GramCensus.Tally.Basic

/-!
# Histograms of counts

A histogram says how many n-grams were seen how often. It is small even where the tally is large,
and it decides which count still belongs to the `k` most frequent n-grams: `Histogram.cutoff` is the
count in whose bin the running number of n-grams, from the largest count on, first exceeds `k`.
-/

namespace GramCensus

/-- Bins of equal counts, each with its number of n-grams, the largest count first. -/
structure Histogram where
  bins : List (UInt32 × Nat)
  descending : bins.Pairwise fun a b => b.1 < a.1

namespace Histogram

/-! ## Filling -/

/-- Adds to the bin of a count, which is opened in its place if there is none. -/
def addBin (count : UInt32) (amount : Nat) : List (UInt32 × Nat) → List (UInt32 × Nat)
  | [] => [(count, amount)]
  | (c, held) :: rest =>
    if c < count then (count, amount) :: (c, held) :: rest
    else if c = count then (c, held + amount) :: rest
    else (c, held) :: addBin count amount rest

theorem eq_or_mem_of_mem_addBin {count : UInt32} {amount : Nat} {bins : List (UInt32 × Nat)}
    {bin : UInt32 × Nat} (member : bin ∈ addBin count amount bins) :
    bin.1 = count ∨ ∃ old ∈ bins, old.1 = bin.1 := by
  induction bins with
  | nil => exact .inl (by rw [List.mem_singleton.1 member])
  | cons first rest ih =>
    rw [addBin] at member
    split at member
    · rcases List.mem_cons.1 member with rfl | old
      · exact .inl rfl
      · exact .inr ⟨bin, old, rfl⟩
    · split at member
      · rcases List.mem_cons.1 member with rfl | old
        · exact .inr ⟨first, List.mem_cons_self, rfl⟩
        · exact .inr ⟨bin, List.mem_cons_of_mem _ old, rfl⟩
      · rcases List.mem_cons.1 member with rfl | later
        · exact .inr ⟨first, List.mem_cons_self, rfl⟩
        · rcases ih later with same | ⟨old, held, same⟩
          · exact .inl same
          · exact .inr ⟨old, List.mem_cons_of_mem _ held, same⟩

/-- Adding keeps the bins in descending order. -/
theorem pairwise_addBin {count : UInt32} {amount : Nat} {bins : List (UInt32 × Nat)}
    (descending : bins.Pairwise fun a b => b.1 < a.1) :
    (addBin count amount bins).Pairwise fun a b => b.1 < a.1 := by
  induction bins with
  | nil => simp [addBin]
  | cons first rest ih =>
    obtain ⟨below, sorted⟩ := List.pairwise_cons.1 descending
    rw [addBin]
    split
    case isTrue smaller =>
      refine List.pairwise_cons.2 ⟨fun bin member => ?_, descending⟩
      rcases List.mem_cons.1 member with rfl | later
      · exact smaller
      · exact UInt32.lt_trans (below bin later) smaller
    case isFalse notSmaller =>
      split
      case isTrue same =>
        exact List.pairwise_cons.2 ⟨fun bin member => below bin member, sorted⟩
      case isFalse other =>
        refine List.pairwise_cons.2 ⟨fun bin member => ?_, ih sorted⟩
        rcases eq_or_mem_of_mem_addBin member with same | ⟨old, held, same⟩
        · rw [same]
          exact UInt32.lt_of_le_of_ne (UInt32.not_lt.1 notSmaller) (Ne.symm other)
        · rw [← same]
          exact below old held

/-- The histogram without bins. -/
def empty : Histogram :=
  ⟨[], .nil⟩

/-- Adds a number of n-grams with one count. -/
def add (histogram : Histogram) (count : UInt32) (amount : Nat) : Histogram :=
  ⟨addBin count amount histogram.bins, pairwise_addBin histogram.descending⟩

/-- The histogram of some bins; bins of one count add up. -/
def ofList (bins : List (UInt32 × Nat)) : Histogram :=
  bins.foldl (fun histogram (count, amount) => histogram.add count amount) empty

/-! ## The cutoff -/

/-- The number of n-grams in all bins. -/
def total (histogram : Histogram) : Nat :=
  sumOf (histogram.bins.map (·.2))

/-- The count of the first bin at which the running number of n-grams exceeds `k`, or one, where
`before` n-grams stand in earlier bins. -/
def cutoffFrom (k before : Nat) : List (UInt32 × Nat) → UInt32
  | [] => 1
  | (count, amount) :: rest =>
    if k < before + amount then count else cutoffFrom k (before + amount) rest

/-- The smallest count that belongs to the `k` most frequent of `total` n-grams. It is one where all
of them belong. -/
def cutoff (histogram : Histogram) (total k : Nat) : UInt32 :=
  if total < k then 1 else cutoffFrom k 0 histogram.bins

/-- The number of n-grams with a larger count. -/
def above (histogram : Histogram) (count : UInt32) : Nat :=
  sumOf ((histogram.bins.takeWhile fun bin => count < bin.1).map (·.2))

end Histogram

namespace Tally

/-- The histogram of all counts above one. -/
def histogram (tally : Tally) : Histogram :=
  tally.nonzero.foldl (fun h (_, c) => if 1 < c then h.add c 1 else h) .empty

end Tally

end GramCensus
