import GramCensus.Proofs.RankTrie.Ranks

/-!
# What keeps a trie from being built

A table without entries or with empty stems is refused as it stands. Any other table is refused for a
stem that occurs twice, and the failure names the first of these stems in rank order, where the weights
of branches count repeated entries as often as they occur. What building has rearranged by then is
still the same entries (`RankTrie.buildWith_refuses_repeats`).
-/

namespace GramCensus

namespace RankTrie

variable {threshold : Nat} {table : GramTable}

theorem buildWith_of_empty (empty : table.entries = []) :
    buildWith threshold table = (table, .error .noStems) := by
  rw [buildWith, if_pos (by rw [GramTable.isEmpty, empty]; rfl)]

theorem buildWith_of_narrow (nonempty : table.entries ≠ []) (narrow : table.width = 0) :
    buildWith threshold table = (table, .error (.settings .emptyStems)) := by
  rw [buildWith, if_neg (by simpa [GramTable.isEmpty] using nonempty), if_pos narrow]

/-- Arranging a table stops at the first stem in rank order that occurs twice. -/
theorem finds_arrange_table (positive : 0 < table.width) :
    FindsRepeated (RanksBefore table.entries) (table.entries.map (·.gram))
      (arrange threshold table.width 0 table.entries).repeated := by
  obtain ⟨remaining, width_eq⟩ := Nat.exists_eq_add_one_of_ne_zero (Nat.ne_of_gt positive)
  -- Nothing is shared at the root, so all entries begin alike.
  have finds := @finds_arrange threshold remaining table.entries [] fun e member => by
    rw [length_of_mem_entries e member, width_eq, List.length_nil]
  rwa [beginning_nil, ← width_eq, List.length_nil] at finds

theorem buildWith_of_repeated (nonempty : table.entries ≠ []) (positive : 0 < table.width)
    {stem : Bytes} (repeated : (arrange threshold table.width 0 table.entries).repeated = some stem) :
    (buildWith threshold table).2 = .error (.duplicateStem stem) := by
  rw [buildWith, if_neg (by simpa [GramTable.isEmpty] using nonempty),
    if_neg (Nat.ne_of_gt positive)]
  simp only [repeated]

/-- A table is never corrupted: whatever comes of building a trie, the table keeps its entries, each stem
with its own count. Without entries, or with empty stems, the table is refused untouched. Otherwise a
trie that would fit is built exactly if no stem occurs twice, and where one does, whatever the size, the
failure names the repeated stem that ranks before all others. -/
theorem buildWith_refuses_repeats (threshold : Nat) (table : GramTable) :
    (buildWith threshold table).1.width = table.width ∧
      (buildWith threshold table).1.entries.Perm table.entries ∧
      (table.entries = [] → buildWith threshold table = (table, .error .noStems)) ∧
      (table.entries ≠ [] → table.width = 0 →
        buildWith threshold table = (table, .error (.settings .emptyStems))) ∧
      (table.entries ≠ [] → 0 < table.width →
        (Fits threshold table →
          ((∃ failure, (buildWith threshold table).2 = .error failure) ↔
            ¬ (table.entries.map (·.gram)).Nodup)) ∧
        (¬ (table.entries.map (·.gram)).Nodup →
          ∃ stem, FirstRepeated (RanksBefore table.entries) (table.entries.map (·.gram)) stem ∧
            (buildWith threshold table).2 = .error (.duplicateStem stem))) := by
  refine ⟨width_buildWith threshold table, buildWith_perm threshold table, buildWith_of_empty,
    buildWith_of_narrow, fun nonempty positive => ?_⟩
  have reports : ¬ (table.entries.map (·.gram)).Nodup →
      ∃ stem, FirstRepeated (RanksBefore table.entries) (table.entries.map (·.gram)) stem ∧
        (buildWith threshold table).2 = .error (.duplicateStem stem) := by
    intro repeats
    have finds := @finds_arrange_table threshold table positive
    cases stops : (arrange threshold table.width 0 table.entries).repeated with
    | none => exact absurd (finds.eq_none_iff.1 stops) repeats
    | some stem =>
      rw [stops] at finds
      exact ⟨stem, finds, buildWith_of_repeated nonempty positive stops⟩
  refine ⟨fun fits => ⟨?_, fun repeats => ?_⟩, reports⟩
  · rintro ⟨failure, fails⟩ distinct
    rcases buildWith_eq_ok_of_fits nonempty positive distinct fits with ⟨trie, succeeds⟩
    rw [succeeds] at fails
    cases fails
  · rcases reports repeats with ⟨stem, -, fails⟩
    exact ⟨_, fails⟩

/-- Two stems that both occur twice, of which the second is in the heavier branch. -/
def repeatedStems : GramTable where
  width := 2
  entries := [⟨[1, 7], 5⟩, ⟨[2, 3], 4⟩, ⟨[1, 7], 1⟩, ⟨[2, 3], 9⟩]
  uniform := by decide

/-- The stem in the heavier branch is named, although it is the larger one and stands behind the other. The
entries of this branch have been brought to the front by then. -/
theorem buildWith_refuses_repeats_of_heavy_branch :
    (buildWith 2 repeatedStems).2 = .error (.duplicateStem [2, 3]) ∧
      (buildWith 2 repeatedStems).1.entries =
        [⟨[2, 3], 4⟩, ⟨[2, 3], 9⟩, ⟨[1, 7], 5⟩, ⟨[1, 7], 1⟩] := by
  have entries_eq : (buildWith 2 repeatedStems).1.entries =
      [⟨[2, 3], 4⟩, ⟨[2, 3], 9⟩, ⟨[1, 7], 5⟩, ⟨[1, 7], 1⟩] := by
    rw [entries_buildWith]
    decide +kernel
  rcases (buildWith_refuses_repeats 2 repeatedStems).2.2.2.2 (by decide) (by decide) with ⟨-, reports⟩
  rcases reports (by decide) with ⟨stem, first, fails⟩
  have member := mem_of_one_lt_count first.repeated
  have lighter : ¬ RanksBefore repeatedStems.entries ([] ++ 1 :: [7]) ([] ++ 2 :: [3]) := by
    rw [ranksBefore_iff (by decide)]
    decide +kernel
  simp only [repeatedStems, List.map_cons, List.map_nil, List.mem_cons, List.not_mem_nil, or_false] at member
  have stem_eq : stem = [2, 3] := by
    by_contra other
    obtain rfl : stem = [1, 7] := by grind
    exact lighter (first.first [2, 3] (by decide) (by decide))
  rw [stem_eq] at fails
  exact ⟨fails, entries_eq⟩

end RankTrie

end GramCensus
