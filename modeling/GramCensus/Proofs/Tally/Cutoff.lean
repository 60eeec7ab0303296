import GramCensus.Tally.Selection

/-!
# Cutoffs

The cutoff for the `k` most frequent n-grams is the count at which the running number of n-grams
passes `k`, and it is one where the number never does (`Histogram.cutoff_splits_ties`). A histogram
weighs the counts it was filled with: the bins of any set of counts hold as many n-grams as have one of
these counts (`Histogram.Weighs`). So the cutoff of a tally is told from its counters
(`Histogram.Weighs.cutoff_cases`).
-/

namespace GramCensus

namespace Histogram

variable {histogram : Histogram} {p q : UInt32 → Bool} {bins : List (UInt32 × Nat)} {count : UInt32}
  {k : Nat}

/-! ## The weight of bins -/

/-- The number of n-grams in the bins of some counts. -/
def mass (p : UInt32 → Bool) (bins : List (UInt32 × Nat)) : Nat :=
  sumOf ((bins.filter fun bin => p bin.1).map (·.2))

theorem mass_cons_pos {amount : Nat} (holds : p count = true) :
    mass p ((count, amount) :: bins) = amount + mass p bins := by
  simp [mass, holds]

theorem mass_cons_neg {amount : Nat} (fails : ¬ p count = true) :
    mass p ((count, amount) :: bins) = mass p bins := by
  simp [mass, fails]

theorem mass_append (p : UInt32 → Bool) (first second : List (UInt32 × Nat)) :
    mass p (first ++ second) = mass p first + mass p second := by
  simp [mass]

theorem mass_of_all (all : ∀ bin ∈ bins, p bin.1 = true) : mass p bins = sumOf (bins.map (·.2)) := by
  have whole : (bins.filter fun bin => p bin.1) = bins := List.filter_eq_self.2 all
  rw [mass, whole]

theorem mass_of_none (none : ∀ bin ∈ bins, ¬ p bin.1 = true) : mass p bins = 0 := by
  have empty : (bins.filter fun bin => p bin.1) = [] := List.filter_eq_nil_iff.2 none
  rw [mass, empty]
  rfl

theorem mass_mono (weaker : ∀ count, p count = true → q count = true)
    (bins : List (UInt32 × Nat)) : mass p bins ≤ mass q bins := by
  induction bins with
  | nil => exact Nat.le_refl 0
  | cons bin rest ih =>
    rcases bin with ⟨count, amount⟩
    by_cases stronger : p count = true
    · rw [mass_cons_pos stronger, mass_cons_pos (weaker count stronger)]
      exact Nat.add_le_add_left ih amount
    · rw [mass_cons_neg stronger]
      by_cases holds : q count = true
      · rw [mass_cons_pos holds]
        exact Nat.le_add_left_of_le ih
      · rwa [mass_cons_neg holds]

/-- The n-grams that have at least some count are those above it and those in its bin. -/
theorem mass_atLeast (count : UInt32) (bins : List (UInt32 × Nat)) :
    mass (fun other => count ≤ other) bins =
      mass (fun other => count < other) bins + mass (fun other => other == count) bins := by
  induction bins with
  | nil => rfl
  | cons bin rest ih =>
    rcases bin with ⟨other, amount⟩
    by_cases same : other = count
    · subst same
      rw [mass_cons_pos (by simp), mass_cons_neg (by simp), mass_cons_pos (by simp), ih,
        Nat.add_left_comm]
    · by_cases larger : count < other
      · rw [mass_cons_pos (decide_eq_true (UInt32.le_of_lt larger)),
          mass_cons_pos (decide_eq_true larger), mass_cons_neg (by simpa using same), ih,
          Nat.add_assoc]
      · have smaller : ¬ count ≤ other := fun atLeast =>
          larger (UInt32.lt_of_le_of_ne atLeast (Ne.symm same))
        rw [mass_cons_neg (by simpa using smaller), mass_cons_neg (by simpa using larger),
          mass_cons_neg (by simpa using same), ih]

theorem mass_addBin (p : UInt32 → Bool) (count : UInt32) (amount : Nat)
    (bins : List (UInt32 × Nat)) :
    mass p (addBin count amount bins) = mass p bins + if p count = true then amount else 0 := by
  induction bins with
  | nil => by_cases holds : p count = true <;> simp [addBin, mass, holds]
  | cons bin rest ih =>
    rcases bin with ⟨other, held⟩
    rw [addBin]
    -- The bin is opened here, or this is the bin, or it lies further behind.
    split
    case isTrue =>
      by_cases holds : p count = true
      · rw [mass_cons_pos holds, if_pos holds, Nat.add_comm]
      · rw [mass_cons_neg holds, if_neg holds, Nat.add_zero]
    case isFalse =>
      split
      case isTrue same =>
        subst same
        by_cases holds : p other = true
        · rw [mass_cons_pos holds, mass_cons_pos holds, if_pos holds, Nat.add_right_comm]
        · rw [mass_cons_neg holds, mass_cons_neg holds, if_neg holds, Nat.add_zero]
      case isFalse =>
        by_cases holds : p other = true
        · rw [mass_cons_pos holds, mass_cons_pos holds, ih, Nat.add_assoc]
        · rw [mass_cons_neg holds, mass_cons_neg holds, ih]

theorem pos_of_mem_addBin {amount : Nat} (some : 0 < amount)
    (filled : ∀ bin ∈ bins, 0 < bin.2) :
    ∀ bin ∈ addBin count amount bins, 0 < bin.2 := by
  induction bins with
  | nil => simpa [addBin] using some
  | cons first rest ih =>
    rcases List.forall_mem_cons.1 filled with ⟨firstFilled, restFilled⟩
    rw [addBin]
    split
    · exact List.forall_mem_cons.2 ⟨some, filled⟩
    · split
      · exact List.forall_mem_cons.2 ⟨Nat.add_pos_left firstFilled _, restFilled⟩
      · exact List.forall_mem_cons.2 ⟨firstFilled, ih restFilled⟩

/-- In descending bins the larger counts come first. -/
theorem takeWhile_eq_filter (descending : bins.Pairwise fun a b => b.1 < a.1) (count : UInt32) :
    (bins.takeWhile fun bin => count < bin.1) = bins.filter fun bin => count < bin.1 := by
  induction bins with
  | nil => rfl
  | cons bin rest ih =>
    rcases List.pairwise_cons.1 descending with ⟨below, sorted⟩
    by_cases larger : count < bin.1
    · simp only [List.takeWhile_cons, List.filter_cons, larger, decide_true, if_true, ih sorted]
    · have none : ∀ other ∈ rest, ¬ count < other.1 := by
        intro other member larger'
        exact larger (UInt32.lt_trans larger' (below other member))
      have empty : (rest.filter fun bin => count < bin.1) = [] := by
        apply List.filter_eq_nil_iff.2
        intro other member
        simpa using none other member
      simp [larger, empty]

theorem above_eq_mass (histogram : Histogram) (count : UInt32) :
    histogram.above count = mass (fun other => count < other) histogram.bins := by
  rw [above, takeWhile_eq_filter histogram.descending, mass]

/-- In descending bins the bins before some bin are those of the larger counts. -/
theorem mass_of_split {earlier later : List (UInt32 × Nat)} {amount : Nat}
    (descending : (earlier ++ (count, amount) :: later).Pairwise fun a b => b.1 < a.1) :
    mass (fun other => count < other) (earlier ++ (count, amount) :: later) =
        sumOf (earlier.map (·.2)) ∧
      mass (fun other => count ≤ other) (earlier ++ (count, amount) :: later) =
        sumOf (earlier.map (·.2)) + amount := by
  rcases List.pairwise_append.1 descending with ⟨-, sorted, apart⟩
  rcases List.pairwise_cons.1 sorted with ⟨below, -⟩
  have larger : ∀ bin ∈ earlier, count < bin.1 := fun bin member =>
    apart bin member _ List.mem_cons_self
  constructor
  · rw [mass_append, mass_of_all, mass_of_none, Nat.add_zero]
    · intro bin member
      rcases List.mem_cons.1 member with rfl | behind
      · simp
      · simpa using UInt32.lt_asymm (below bin behind)
    · exact fun bin member => decide_eq_true (larger bin member)
  · rw [mass_append, mass_of_all, mass_cons_pos (by simp), mass_of_none, Nat.add_zero]
    · intro bin behind
      simpa using below bin behind
    · exact fun bin member => decide_eq_true (UInt32.le_of_lt (larger bin member))

/-- In descending bins a count has one bin, which holds all its n-grams. -/
theorem mass_of_mem {amount : Nat}
    (member : (count, amount) ∈ histogram.bins) :
    mass (fun other => other == count) histogram.bins = amount := by
  rcases List.append_of_mem member with ⟨earlier, later, split⟩
  have descending := histogram.descending
  rw [split] at descending
  rcases mass_of_split descending with ⟨above, atLeast⟩
  rw [← split, mass_atLeast] at atLeast
  rw [← split] at above
  omega

/-- Where no bin is empty, the bins are told from what the counts weigh. -/
theorem mem_bins_iff (filled : ∀ bin ∈ histogram.bins, 0 < bin.2)
    {amount : Nat} :
    (count, amount) ∈ histogram.bins ↔
      0 < amount ∧ mass (fun other => other == count) histogram.bins = amount := by
  constructor
  · intro member
    exact ⟨filled _ member, mass_of_mem member⟩
  · rintro ⟨some, rfl⟩
    -- A bin that is not there holds nothing.
    by_cases held : ∃ bin ∈ histogram.bins, bin.1 = count
    · rcases held with ⟨⟨_, amount⟩, member, rfl⟩
      rwa [mass_of_mem member]
    · have none : mass (fun other => other == count) histogram.bins = 0 :=
        mass_of_none fun bin member same => held ⟨bin, member, eq_of_beq same⟩
      omega

/-! ## Where the running number passes `k` -/

/-- The running number of n-grams never exceeds `k`, or it does at one bin first. -/
theorem cutoffFrom_cases {before : Nat} (within : before ≤ k) (bins : List (UInt32 × Nat)) :
    (before + sumOf (bins.map (·.2)) ≤ k ∧ cutoffFrom k before bins = 1) ∨
      ∃ earlier amount later, bins = earlier ++ (cutoffFrom k before bins, amount) :: later ∧
        before + sumOf (earlier.map (·.2)) ≤ k ∧
        k < before + sumOf (earlier.map (·.2)) + amount := by
  induction bins generalizing before with
  | nil => exact .inl ⟨within, rfl⟩
  | cons bin rest ih =>
    rcases bin with ⟨count, amount⟩
    rw [cutoffFrom]
    split
    case isTrue passed => exact .inr ⟨[], amount, rest, rfl, within, passed⟩
    case isFalse notPassed =>
      rcases ih (Nat.not_lt.1 notPassed) with ⟨few, one⟩ | ⟨earlier, held, later, split, low, high⟩
      · refine .inl ⟨?_, one⟩
        simpa [Nat.add_assoc] using few
      · refine .inr ⟨(count, amount) :: earlier, held, later, congrArg _ split, ?_, ?_⟩
        · simpa [Nat.add_assoc] using low
        · simpa [Nat.add_assoc] using high

/-- `k` falls into the bin of a count: no more than `k` n-grams have a larger count, and more than `k`
have at least this one. -/
structure FallsInto (histogram : Histogram) (k : Nat) (count : UInt32) : Prop where
  held : count ∈ histogram.bins.map (·.1)
  above_le : mass (fun other => count < other) histogram.bins ≤ k
  lt_atLeast : k < mass (fun other => count ≤ other) histogram.bins

theorem cutoff_of_total_le (few : histogram.total ≤ k) :
    histogram.cutoff histogram.total k = 1 := by
  rw [cutoff]
  split
  · rfl
  · rcases cutoffFrom_cases (Nat.zero_le k) histogram.bins with
      ⟨-, one⟩ | ⟨earlier, amount, later, split, -, high⟩
    · exact one
    · -- The bins up to any one of them hold no more than all of them.
      have whole := congrArg (fun bins => sumOf (bins.map (·.2))) split
      simp only [List.map_append, List.map_cons, sumOf_append, sumOf_cons] at whole
      rw [total] at few
      omega

/-- The running number of n-grams passes `k` at one bin. -/
theorem fallsInto_cutoff (more : k < histogram.total) :
    histogram.FallsInto k (histogram.cutoff histogram.total k) := by
  rw [cutoff, if_neg (Nat.lt_asymm more)]
  rcases cutoffFrom_cases (Nat.zero_le k) histogram.bins with
    ⟨few, -⟩ | ⟨earlier, amount, later, split, low, high⟩
  · rw [Nat.zero_add, ← total] at few
    exact absurd more (Nat.not_lt.2 few)
  · generalize cutoffFrom k 0 histogram.bins = cutoff at split ⊢
    have descending := histogram.descending
    rw [split] at descending
    rcases mass_of_split descending with ⟨above, atLeast⟩
    rw [Nat.zero_add] at low high
    refine ⟨?_, by rwa [split, above], by rwa [split, atLeast]⟩
    rw [split]
    simp

/-- No more than `k` n-grams are above the cutoff, so that the budget is what they leave of `k`. -/
theorem above_cutoff_le (histogram : Histogram) (k : Nat) :
    histogram.above (histogram.cutoff histogram.total k) ≤ k := by
  rw [above_eq_mass]
  rcases Nat.lt_or_ge k histogram.total with more | few
  · exact (fallsInto_cutoff more).above_le
  · calc mass (fun other => histogram.cutoff histogram.total k < other) histogram.bins
        ≤ mass (fun _ => true) histogram.bins := mass_mono (fun _ _ => rfl) _
      _ = histogram.total := mass_of_all fun _ _ => rfl
      _ ≤ k := few

/-- The more n-grams are wanted, the smaller the cutoff. -/
theorem cutoff_le_cutoff (counted : ∀ bin ∈ histogram.bins, 1 ≤ bin.1)
    {j : Nat} (fewer : j ≤ k) :
    histogram.cutoff histogram.total k ≤ histogram.cutoff histogram.total j := by
  rcases Nat.lt_or_ge j histogram.total with more | all
  · have falls := fallsInto_cutoff more
    rcases Nat.lt_or_ge k histogram.total with more' | all'
    · -- Were the later cutoff larger, all n-grams from it on would be above the earlier one.
      refine UInt32.not_lt.1 fun larger => ?_
      have passed : k < k := calc
        k < mass (fun other => histogram.cutoff histogram.total k ≤ other) histogram.bins :=
            (fallsInto_cutoff more').lt_atLeast
        _ ≤ mass (fun other => histogram.cutoff histogram.total j < other) histogram.bins :=
            mass_mono (fun other atLeast =>
              decide_eq_true (UInt32.lt_of_lt_of_le larger (of_decide_eq_true atLeast))) _
        _ ≤ j := falls.above_le
        _ ≤ k := fewer
      exact Nat.lt_irrefl k passed
    · rw [cutoff_of_total_le all']
      rcases List.mem_map.1 falls.held with ⟨bin, member, same⟩
      rw [← same]
      exact counted bin member
  · rw [cutoff_of_total_le all, cutoff_of_total_le (Nat.le_trans all fewer)]
    exact UInt32.le_refl 1

/-! ## Ties at the cutoff -/

/-- What `k` leaves for the n-grams at the cutoff. -/
def tieBudget (histogram : Histogram) (k : Nat) : Nat :=
  if histogram.total < k then 0 else k - histogram.above (histogram.cutoff histogram.total k)

/-- The n-grams at the cutoff do not all fit. -/
theorem tieBudget_lt (more : k < histogram.total) :
    histogram.tieBudget k <
      mass (fun other => other == histogram.cutoff histogram.total k) histogram.bins := by
  have within := histogram.above_cutoff_le k
  have passed := (fallsInto_cutoff more).lt_atLeast
  rw [mass_atLeast, ← above_eq_mass] at passed
  rw [tieBudget, if_neg (Nat.lt_asymm more)]
  omega

/-- Where there are more than `k` n-grams, `k` falls into the bin at the cutoff; otherwise the cutoff is
one. So the cutoff does not grow with `k` where every count is at least one, and the budget with which a
selection takes the n-grams at the cutoff is just what the n-grams above it leave of `k`: fewer n-grams
than the bin has, where `k` falls into it. -/
theorem cutoff_splits_ties (histogram : Histogram) :
    (∀ k < histogram.total, histogram.FallsInto k (histogram.cutoff histogram.total k)) ∧
      (∀ k, histogram.total ≤ k → histogram.cutoff histogram.total k = 1) ∧
      ((∀ bin ∈ histogram.bins, 1 ≤ bin.1) → ∀ j k, j ≤ k →
        histogram.cutoff histogram.total k ≤ histogram.cutoff histogram.total j) ∧
      (∀ k, histogram.above (histogram.cutoff histogram.total k) ≤ k) ∧
      (∀ k < histogram.total, histogram.tieBudget k <
        mass (fun count => count == histogram.cutoff histogram.total k) histogram.bins) ∧
      ∀ (tally : Tally) (k : Nat), tally.top k = tally.select
        (tally.histogram.cutoff tally.histogram.total k) (tally.histogram.tieBudget k) :=
  ⟨fun _ more => fallsInto_cutoff more, fun _ few => cutoff_of_total_le few,
    fun counted _ _ fewer => cutoff_le_cutoff counted fewer, histogram.above_cutoff_le,
    fun _ more => tieBudget_lt more, fun _ _ => rfl⟩

/-! ## Histograms of counts -/

variable {counts : List UInt32}

/-- A histogram weighs what some counts weigh. -/
def Weighs (histogram : Histogram) (counts : List UInt32) : Prop :=
  ∀ p : UInt32 → Bool, mass p histogram.bins = counts.countP p

namespace Weighs

theorem total_eq (weighs : histogram.Weighs counts) : histogram.total = counts.length := by
  have all : mass (fun _ => true) histogram.bins = sumOf (histogram.bins.map (·.2)) :=
    mass_of_all fun _ _ => rfl
  rw [total, ← all, weighs, List.countP_true]

theorem above_eq (weighs : histogram.Weighs counts) (count : UInt32) :
    histogram.above count = counts.countP fun other => count < other := by
  rw [above_eq_mass, weighs]

/-- Either there are no more than `k` counts, or the cutoff is the count at which the running number
of counts passes `k`. -/
theorem cutoff_cases (weighs : histogram.Weighs counts) (k : Nat) :
    (counts.length ≤ k ∧ histogram.cutoff histogram.total k = 1) ∨
      (histogram.cutoff histogram.total k ∈ counts ∧
        histogram.above (histogram.cutoff histogram.total k) ≤ k ∧
        k < counts.countP fun other => histogram.cutoff histogram.total k ≤ other) := by
  rcases Nat.lt_or_ge k histogram.total with more | few
  · rcases fallsInto_cutoff more with ⟨-, low, high⟩
    refine .inr ⟨?_, by rwa [above_eq_mass], by rwa [← weighs]⟩
    -- The bin holds something, as the running number passes `k` there.
    rw [mass_atLeast, weighs, weighs] at high
    rw [weighs] at low
    have some : 0 < counts.countP fun other => other == histogram.cutoff histogram.total k := by omega
    rcases List.countP_pos_iff.1 some with ⟨other, member, same⟩
    rwa [← eq_of_beq same]
  · exact .inl ⟨weighs.total_eq ▸ few, cutoff_of_total_le few⟩

/-- A cutoff above one is reached by `k` and leaves a budget that can be used up at the cutoff; a
cutoff of one leaves none. -/
theorem fills (weighs : histogram.Weighs counts) (several : ∀ count ∈ counts, 1 < count) {k : Nat}
    {least : UInt32} {budget : Nat} (cutoff_eq : histogram.cutoff histogram.total k = least)
    (budget_eq : (if histogram.total < k then 0 else k - histogram.above least) = budget) :
    1 < least ∧ (counts.countP fun count => least < count) + budget = k ∧
        budget ≤ (counts.countP fun count => count = least) ∨
      least = 1 ∧ budget = 0 ∧ (counts.countP fun count => 1 < count) ≤ k := by
  have total := weighs.total_eq
  have above := weighs.above_eq least
  rcases weighs.cutoff_cases k with ⟨few, one⟩ | ⟨member, low, high⟩
  · rw [one] at cutoff_eq
    subst cutoff_eq
    have all : (counts.countP fun count => 1 < count) = counts.length :=
      List.countP_eq_length.2 fun count member => decide_eq_true (several count member)
    refine .inr ⟨rfl, ?_, by omega⟩
    -- If there are exactly `k` counts, the budget is what they leave of `k`.
    split at budget_eq <;> omega
  · rw [cutoff_eq] at member low high
    have many : (counts.countP fun count => least ≤ count) ≤ counts.length := List.countP_le_length
    have enough : ¬ histogram.total < k := by omega
    rw [if_neg enough] at budget_eq
    have split : (counts.countP fun count => least ≤ count) =
        (counts.countP fun count => least < count) + counts.countP fun count => count = least := by
      clear weighs several above member low high total many
      induction counts with
      | nil => rfl
      | cons count rest ih =>
        simp only [List.countP_cons, decide_eq_true_iff, UInt32.le_iff_toNat_le,
          UInt32.lt_iff_toNat_lt, ← UInt32.toNat_inj] at ih ⊢
        split <;> split <;> split <;> omega
    exact .inl ⟨several least member, by omega, by omega⟩

end Weighs

end Histogram

namespace Tally

theorem mass_foldl_add (p : UInt32 → Bool) (pairs : List (Nat × UInt32)) (histogram : Histogram) :
    Histogram.mass p (pairs.foldl (fun h (_, c) => if 1 < c then h.add c 1 else h) histogram).bins =
      Histogram.mass p histogram.bins +
        ((pairs.map (·.2)).filter fun count => 1 < count).countP p := by
  induction pairs generalizing histogram with
  | nil => simp
  | cons pair rest ih =>
    rw [List.foldl_cons, ih]
    by_cases several : 1 < pair.2
    · by_cases holds : p pair.2 = true
      · simp only [several, holds, Histogram.add, Histogram.mass_addBin, List.map_cons,
          List.filter_cons, List.countP_cons, decide_true, if_true]
        omega
      · simp [several, holds, Histogram.add, Histogram.mass_addBin]
    · simp [several]

/-- The histogram of a tally weighs its counts above one. -/
theorem weighs_histogram (tally : Tally) :
    tally.histogram.Weighs ((tally.nonzero.map (·.2)).filter fun count => 1 < count) := by
  intro p
  rw [histogram, mass_foldl_add]
  exact Nat.zero_add _

/-- No bin of a tally's histogram is empty. -/
theorem pos_of_mem_histogram (tally : Tally) : ∀ bin ∈ tally.histogram.bins, 0 < bin.2 := by
  refine List.foldlRecOn tally.nonzero _ (motive := fun histogram : Histogram =>
    ∀ bin ∈ histogram.bins, 0 < bin.2) (fun _ none => nomatch none) ?_
  rintro histogram filled ⟨slot, count⟩ -
  dsimp only
  split
  · exact Histogram.pos_of_mem_addBin Nat.one_pos filled
  · exact filled

end Tally

end GramCensus
