import GramCensus.Proofs.Tally.Exact

/-!
# Reading regions

Counters are read one region after the other, since every region has a lock of its own. Where the
regions meet no counter is left out and none is read twice: all counters in order are those of the
slots (`Tally.toList_eq`), and so are the counters of any range of slots (`Tally.range_eq_ok`). The
largest counter and the histogram are found from the counters that are not zero, but a visit of all of
them finds the same. So all ways of reading a tally agree (`Tally.readings_agree`).
-/

namespace GramCensus

namespace Tally

section

variable (tally : Tally) {start border stop rounds length : Nat}

/-! ## Neighbouring slots -/

theorem between_eq_nil (backward : stop ≤ start) : tally.between start stop = [] := by
  rw [between, Nat.sub_eq_zero_of_le backward]
  rfl

/-- What is read up to a border and from it on is what is read at once. -/
theorem between_append (before : start ≤ border) (behind : border ≤ stop) :
    tally.between start border ++ tally.between border stop = tally.between start stop := by
  obtain ⟨first, rfl⟩ := Nat.exists_eq_add_of_le before
  obtain ⟨second, rfl⟩ := Nat.exists_eq_add_of_le behind
  rw [between, between, between, Nat.add_sub_cancel_left, Nat.add_sub_cancel_left, Nat.add_assoc,
    Nat.add_sub_cancel_left, List.range_add, List.map_append, List.map_map]
  congr 1
  apply List.map_congr_left
  intro i _
  rw [Function.comp_apply, Nat.add_assoc]

theorem between_zero (stop : Nat) :
    tally.between 0 stop = (List.range stop).map fun slot => (slot, tally.count slot) := by
  rw [between, Nat.sub_zero]
  apply List.map_congr_left
  intro slot _
  rw [Nat.zero_add]

/-! ## All counters -/

/-- The first regions hold the first slots. -/
theorem flatMap_regions (regions : Nat) :
    ((List.range regions).flatMap fun region =>
        tally.between (region * regionSize) (min ((region + 1) * regionSize) tally.size)) =
      tally.between 0 (min (regions * regionSize) tally.size) := by
  induction regions with
  | zero =>
    rw [Nat.zero_mul, Nat.zero_min, between_eq_nil tally (Nat.le_refl 0)]
    rfl
  | succ regions ih =>
    rw [List.range_succ, List.flatMap_append, ih, List.flatMap_singleton]
    by_cases inside : regions * regionSize ≤ tally.size
    · rw [Nat.min_eq_left inside]
      apply between_append
      · exact Nat.zero_le _
      · rw [Nat.add_mul]
        omega
    · -- A region behind the last counter holds nothing.
      have next : regions * regionSize ≤ (regions + 1) * regionSize :=
        Nat.mul_le_mul_right _ (Nat.le_succ _)
      have behind : tally.size ≤ regions * regionSize := Nat.le_of_not_le inside
      rw [Nat.min_eq_right behind, Nat.min_eq_right (Nat.le_trans behind next),
        between_eq_nil tally behind, List.append_nil]

theorem toList_eq : tally.toList = (List.range tally.size).map fun slot =>
    (slot, tally.count slot) := by
  have covered : tally.size ≤ tally.regions * regionSize := by
    rw [size, regions, regionSize]
    omega
  rw [toList, flatMap_regions, Nat.min_eq_right covered, between_zero]

/-! ## Ranges of counters -/

/-- The pieces of a range, joined, are the range. -/
theorem flatMap_pieces (enough : stop - start ≤ rounds) :
    ((pieces rounds start stop).flatMap fun (first, border) =>
        (tally.between first border).map (·.2)) = (tally.between start stop).map (·.2) := by
  induction rounds generalizing start with
  | zero =>
    rw [between_eq_nil tally (by omega)]
    rfl
  | succ rounds ih =>
    rw [pieces]
    split
    case isTrue backward =>
      rw [between_eq_nil tally backward]
      rfl
    case isFalse forward =>
      -- A piece ends behind its start, so that the rounds are enough for the rest.
      have later : start < min ((start / regionSize + 1) * regionSize) stop := by
        rw [regionSize]
        omega
      rw [List.flatMap_cons, ih (by omega), ← List.map_append,
        between_append tally (Nat.le_of_lt later) (Nat.min_le_right _ _)]

theorem range_eq_ok (inside : start + length ≤ tally.size) :
    tally.range start length = .ok ((List.range length).map fun i => tally.count (start + i)) := by
  rw [range, if_pos inside, flatMap_pieces tally (by omega), between, List.map_map,
    Nat.add_sub_cancel_left]
  rfl

end

variable {tally : Tally} {space : Space}

/-! ## Visits -/

/-- Visits all counters, with their slots, one region after the other. -/
def visit {σ : Type} (tally : Tally) (see : σ → Nat → UInt32 → σ) (start : σ) : σ :=
  tally.toList.foldl (fun state slot => see state slot.1 slot.2) start

/-- Adds a counter to a histogram if it is above one. -/
def enter (histogram : Histogram) (count : UInt32) : Histogram :=
  if 1 < count then histogram.add count 1 else histogram

/-- Adds a counter above one to a histogram, and to the number of such counters beside it. -/
def enterAndCount (filled : Histogram × Nat) (count : UInt32) : Histogram × Nat :=
  if 1 < count then (filled.1.add count 1, filled.2 + 1) else filled

/-- All counters of slots. -/
def counters (tally : Tally) : List UInt32 :=
  (List.range tally.size).map tally.count

theorem map_snd_toList (tally : Tally) : tally.toList.map (·.2) = tally.counters := by
  rw [toList_eq, List.map_map]
  rfl

/-- Counters that are zero are all that is left out. -/
theorem Contained.nonzero_eq (contained : tally.Contained) :
    tally.nonzero = tally.toList.filter fun slot => slot.2 ≠ 0 := by
  rw [← contained.filter_nonzero, ← filter_slotCounts, toList_eq, size_eq_slots, slotCounts]

/-- What is done to the counters that are not zero is done to all, if zeros make no difference. -/
theorem Contained.foldl_nonzero {σ : Type} (contained : tally.Contained) (see : σ → UInt32 → σ)
    (idle : ∀ state, see state 0 = state) (start : σ) :
    tally.nonzero.foldl (fun state slot => see state slot.2) start =
      tally.visit (fun state _ count => see state count) start := by
  rw [contained.nonzero_eq, List.foldl_filter, visit]
  apply List.foldl_ext
  intro state slot _
  by_cases zero : slot.2 = 0
  · simp [zero, idle]
  · simp [zero]

theorem visit_counts {σ : Type} (tally : Tally) (see : σ → UInt32 → σ) (start : σ) :
    tally.visit (fun state _ count => see state count) start = tally.counters.foldl see start := by
  rw [← map_snd_toList, List.foldl_map, visit]

theorem get_eq_ok {slot : Nat} (inside : slot < tally.size) :
    tally.get slot = .ok (tally.count slot) :=
  if_pos inside

theorem get_eq_ok_iff {slot : Nat} {count : UInt32} :
    tally.get slot = .ok count ↔ slot < tally.size ∧ tally.count slot = count := by
  rw [get]
  split <;> simp [*]

/-- Neighbouring counters are found one by one. -/
theorem map_ok_count {start length : Nat} (inside : start + length ≤ tally.size) :
    ((List.range length).map fun i => Except.ok (tally.count (start + i))) =
      (List.range length).map fun i => tally.get (start + i) := by
  apply List.map_congr_left
  intro i member
  have small := List.mem_range.1 member
  exact (get_eq_ok (by omega)).symm

theorem range_eq_error_iff {start length : Nat} :
    tally.range start length = .error .outOfRange ↔ tally.size < start + length := by
  rw [range]
  split
  case isTrue inside => simpa using inside
  case isFalse outside => simpa using outside

/-! ## The largest counter -/

/-- The largest of some counts and a first one is one of them, and no other is larger. -/
theorem foldl_max_mem_and_le (first : UInt32) (counts : List UInt32) :
    counts.foldl max first ∈ first :: counts ∧
      ∀ count ∈ first :: counts, count ≤ counts.foldl max first := by
  induction counts generalizing first with
  | nil => simp
  | cons next rest ih =>
    have either : max first next = first ∧ next ≤ first ∨ max first next = next ∧ first ≤ next := by
      rcases UInt32.le_total next first with smaller | larger
      · by_cases same : first ≤ next
        · exact .inr ⟨if_pos same, same⟩
        · exact .inl ⟨if_neg same, smaller⟩
      · exact .inr ⟨if_pos larger, larger⟩
    rw [List.foldl_cons]
    rcases ih (max first next) with ⟨member, bound⟩
    rcases List.forall_mem_cons.1 bound with ⟨own, others⟩
    rcases either with ⟨same, less⟩ | ⟨same, less⟩ <;> rw [same] at member own others ⊢
    · refine ⟨by simp only [List.mem_cons] at member ⊢; tauto, ?_⟩
      exact List.forall_mem_cons.2 ⟨own, List.forall_mem_cons.2 ⟨UInt32.le_trans less own, others⟩⟩
    · refine ⟨List.mem_cons_of_mem _ member, ?_⟩
      exact List.forall_mem_cons.2 ⟨UInt32.le_trans less own, List.forall_mem_cons.2 ⟨own, others⟩⟩

theorem Contained.largest_eq (contained : tally.Contained) :
    tally.largest = tally.counters.foldl max 0 := by
  have idle : ∀ count : UInt32, max count 0 = count := by
    intro count
    by_cases zero : count ≤ 0
    · rw [UInt32.le_zero_iff.1 zero]
      rfl
    · exact if_neg zero
  calc tally.largest
      = tally.visit (fun largest _ count => max largest count) 0 := contained.foldl_nonzero max idle 0
    _ = tally.counters.foldl max 0 := tally.visit_counts max 0

theorem Contained.count_le_largest (contained : tally.Contained) {slot : Nat}
    (inside : slot < tally.size) : tally.count slot ≤ tally.largest := by
  rw [contained.largest_eq]
  refine (foldl_max_mem_and_le 0 tally.counters).2 _ (List.mem_cons_of_mem _ ?_)
  exact List.mem_map_of_mem (List.mem_range.2 inside)

theorem Contained.exists_count_eq_largest (contained : tally.Contained) (some : 0 < tally.size) :
    ∃ slot < tally.size, tally.count slot = tally.largest := by
  have member := (foldl_max_mem_and_le 0 tally.counters).1
  rw [← contained.largest_eq] at member
  rcases List.mem_cons.1 member with zero | listed
  · -- Where the largest counter is zero, every counter is.
    have none := contained.count_le_largest some
    rw [zero] at none ⊢
    exact ⟨0, some, UInt32.le_zero_iff.1 none⟩
  · rcases List.mem_map.1 listed with ⟨slot, inside, same⟩
    exact ⟨slot, List.mem_range.1 inside, same⟩

/-! ## Filling a histogram -/

/-- Filling a histogram and counting along the way are two folds. -/
theorem foldl_enterAndCount (filled : Histogram × Nat) (counts : List UInt32) :
    counts.foldl enterAndCount filled =
      (counts.foldl enter filled.1, filled.2 + counts.countP fun count => 1 < count) := by
  induction counts generalizing filled with
  | nil => rfl
  | cons count rest ih =>
    rw [List.foldl_cons, ih, enterAndCount, List.foldl_cons, enter, List.countP_cons]
    split <;> simp [*, Nat.add_assoc, Nat.add_comm 1]

theorem Contained.histogram_eq (contained : tally.Contained) :
    tally.histogram = tally.counters.foldl enter .empty :=
  calc tally.histogram
      = tally.visit (fun histogram _ count => enter histogram count) .empty :=
        contained.foldl_nonzero enter (fun _ => rfl) Histogram.empty
    _ = tally.counters.foldl enter .empty := tally.visit_counts enter .empty

/-- The counters above one are all among those that are not zero. -/
theorem Contained.weighs_counters (contained : tally.Contained) :
    tally.histogram.Weighs (tally.counters.filter fun count => 1 < count) := by
  have same : ((tally.nonzero.map (·.2)).filter fun count => 1 < count) =
      tally.counters.filter fun count => 1 < count := by
    rw [contained.nonzero_eq, ← map_snd_toList, List.filter_map, List.filter_map, List.filter_filter]
    congr 1
    apply List.filter_congr
    intro slot _
    by_cases several : 1 < slot.2
    · have other : slot.2 ≠ 0 := by
        intro zero
        rw [zero] at several
        cases several
      simp [several, other]
    · simp [several]
  exact same ▸ tally.weighs_histogram

/-- The bin of a count above one holds the counters that have this count. -/
theorem Contained.mem_bins_iff (contained : tally.Contained) {count : UInt32} {amount : Nat} :
    (count, amount) ∈ tally.histogram.bins ↔
      1 < count ∧ 0 < amount ∧ tally.counters.count count = amount := by
  rw [Histogram.mem_bins_iff tally.pos_of_mem_histogram, contained.weighs_counters,
    List.countP_filter]
  by_cases several : 1 < count
  · have same : (tally.counters.countP fun other => other == count && decide (1 < other)) =
        tally.counters.count count := by
      apply List.countP_congr
      intro other _
      by_cases equal : other = count
      · simp [equal, several]
      · simp [equal]
    simp [same, several]
  · -- No other count is entered.
    have none : (tally.counters.countP fun other => other == count && decide (1 < other)) = 0 := by
      refine List.countP_eq_zero.2 fun other _ both => several ?_
      have both := Bool.and_eq_true_iff.1 both
      exact eq_of_beq both.1 ▸ of_decide_eq_true both.2
    simp only [none, several, false_and, iff_false]
    omega

/-! ## All readings -/

/-- All ways of reading counters find what is found slot by slot. -/
structure ReadsAlike (tally : Tally) : Prop where
  /-- All counters are visited once, in the order of their slots. -/
  visited : tally.toList.map (fun slot => (slot.1, .ok slot.2)) =
    (List.range tally.size).map fun slot => (slot, tally.get slot)
  counters : tally.counters.map .ok = (List.range tally.size).map tally.get
  /-- A range is read as its slots, wherever it begins and ends. -/
  range_eq : ∀ start length, start + length ≤ tally.size →
    ∃ counts, tally.range start length = .ok counts ∧
      counts.map .ok = (List.range length).map fun i => tally.get (start + i)
  range_refused : ∀ start length,
    tally.range start length = .error .outOfRange ↔ tally.size < start + length
  /-- The largest counter is found on a visit, is one of them, and is not exceeded. -/
  largest_eq : tally.visit (fun largest _ count => max largest count) 0 = tally.largest
  le_largest : ∀ slot count, tally.get slot = .ok count → count ≤ tally.largest
  largest_get : 0 < tally.size → ∃ slot, tally.get slot = .ok tally.largest
  /-- On a visit a histogram is filled, and its n-grams are counted beside it. -/
  recorded : tally.visit (fun filled _ count => enterAndCount filled count) (.empty, 0) =
    (tally.histogram, sumOf (tally.histogram.bins.map (·.2)))
  total_eq : tally.histogram.total = tally.counters.countP fun count => 1 < count
  mem_bins_iff : ∀ count amount, (count, amount) ∈ tally.histogram.bins ↔
    1 < count ∧ 0 < amount ∧ tally.counters.count count = amount

/-- However a tally has grown, all ways of reading its counters agree. -/
theorem readings_agree (grown : Grown space tally) : tally.ReadsAlike := by
  have contained := grown.contained
  have total : tally.histogram.total = tally.counters.countP fun count => 1 < count := by
    rw [contained.weighs_counters.total_eq, List.countP_eq_length_filter]
  refine ⟨?visited, ?counters, ?range_eq, fun _ _ => range_eq_error_iff, ?largest_eq, ?le_largest,
    ?largest_get, ?recorded, total, fun _ _ => contained.mem_bins_iff⟩
  case visited =>
    rw [toList_eq, List.map_map]
    apply List.map_congr_left
    intro slot member
    rw [get_eq_ok (List.mem_range.1 member)]
    rfl
  case counters =>
    have whole : 0 + tally.size ≤ tally.size := Nat.le_of_eq (Nat.zero_add _)
    simpa [Tally.counters] using map_ok_count whole
  case range_eq =>
    intro start length inside
    exact ⟨_, range_eq_ok tally inside, by rw [List.map_map]; exact map_ok_count inside⟩
  case largest_eq =>
    rw [visit_counts, contained.largest_eq]
  case le_largest =>
    intro slot count found
    rcases get_eq_ok_iff.1 found with ⟨inside, rfl⟩
    exact contained.count_le_largest inside
  case largest_get =>
    intro some
    rcases contained.exists_count_eq_largest some with ⟨slot, found⟩
    exact ⟨slot, get_eq_ok_iff.2 found⟩
  case recorded =>
    rw [visit_counts, foldl_enterAndCount, ← contained.histogram_eq, Nat.zero_add, ← total]
    rfl

/-- Counters on both sides of a border between regions, read at once. -/
theorem readings_agree_of_neighbouring_regions :
    ∃ tally, Grown .trigrams tally ∧ tally.range 126 4 = .ok [1, 2, 1, 0] ∧
      tally.range (2 ^ 24 - 1) 2 = .error .outOfRange := by
  obtain ⟨before, added, space_eq, counts⟩ :=
    addWord_eq_ok (show 1 < (zero .trigrams).words by decide) [0x8000000000000000, 0xC000000000000000]
  have inside : 2 < before.words := by
    rw [words, space_eq]
    decide
  obtain ⟨tally, added', space_eq', counts'⟩ := addWord_eq_ok inside [1]
  have size : tally.size = 2 ^ 24 := by
    rw [size_eq_slots, space_eq', space_eq]
    rfl
  have grown : Grown .trigrams tally := .addWord (.addWord .zero added) added'
  have agree := readings_agree grown
  rcases agree.range_eq 126 4 (by rw [size]; decide) with ⟨read, range_eq, slots⟩
  refine ⟨tally, grown, ?_, (agree.range_refused _ _).2 (by rw [size]; decide)⟩
  have none : ∀ slot, (zero .trigrams).count slot = 0 := fun slot => Std.TreeMap.getD_emptyc
  have values : ∀ i < 4, tally.get (126 + i) = .ok ([1, 2, 1, 0].getD i 0) := by
    intro i small
    rw [get_eq_ok (by rw [size]; omega), counts', counts, none]
    revert i
    decide
  have same : read.map Except.ok = [1, 2, 1, 0].map Except.ok := calc
    read.map Except.ok
      = (List.range 4).map fun i => tally.get (126 + i) := slots
    _ = (List.range 4).map fun i => Except.ok ([1, 2, 1, 0].getD i 0) :=
        List.map_congr_left fun i member => values i (List.mem_range.1 member)
    _ = [1, 2, 1, 0].map Except.ok := rfl
  rw [range_eq, List.map_injective_iff.2 (fun _ _ => Except.ok.inj) same]

end Tally

end GramCensus
