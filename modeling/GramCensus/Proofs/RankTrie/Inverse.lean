import GramCensus.Proofs.RankTrie.Ranks

/-!
# A trie inverts its table

Main statement: over stems that are all different a trie can be built with every threshold for which
its numbers fit, always from the same order of the table, and looking stems up and listing them are
then the two directions of one numbering: the number of a stem is its place in the table, and nothing
else has a number (`RankTrie.buildWith_inverts`).
-/

namespace GramCensus

namespace RankTrie

variable {threshold threshold' : Nat} {table ordered : GramTable} {trie trie' : RankTrie}

/-- A stem's number is the place of its entry. -/
theorem Built.search_eq_some_iff (built : Built threshold table ordered trie) {key : Bytes} {id : Nat} :
    trie.search key = some id ↔ ∃ e, ordered.get? id = some e ∧ e.gram = key := by
  rw [built.spans.search_eq_some_iff, List.getElem?_map, Option.map_eq_some_iff]
  rfl

/-- What is no stem has no number. -/
theorem Built.search_eq_none (built : Built threshold table ordered trie) {key : Bytes}
    (absent : key ∉ table.entries.map (·.gram)) : trie.search key = none := by
  refine Option.eq_none_iff_forall_ne_some.2 fun id found => absent ?_
  rcases built.search_eq_some_iff.1 found with ⟨e, place, rfl⟩
  exact List.mem_map.2 ⟨e, built.perm.mem_iff.1 (List.mem_of_getElem? place), rfl⟩

/-- Every number below the number of stems belongs to one key. -/
theorem Built.existsUnique_key (built : Built threshold table ordered trie) {id : Nat}
    (inside : id < trie.stemCount) : ∃! key, trie.search key = some id := by
  rw [built.spans.stemCount_eq] at inside
  refine ⟨_, built.spans.search_eq_some_iff.2 (List.getElem?_eq_getElem inside), ?_⟩
  intro key found
  rw [built.spans.search_eq_some_iff, List.getElem?_eq_getElem inside] at found
  exact (Option.some.inj found).symm

theorem Built.stems_eq (built : Built threshold table ordered trie) :
    trie.stems = ordered.entries.zipIdx.map fun place => (place.2, place.1.gram) := by
  rw [built.spans.stems_eq, List.zipIdx_map, List.map_map]
  rfl

/-- Over stems that are all different, building succeeds with every threshold for which the trie fits,
and leaves the table in an order that does not depend on it. A key is then found with a number if and
only if it is the stem at this place of the table, so that the stems and the numbers below their number
belong to each other and no other key is found; and the walk over the leaves lists all stems with their
numbers, in the order of the table. No two thresholds give different answers. -/
theorem buildWith_inverts (nonempty : table.entries ≠ []) (positive : 0 < table.width)
    (distinct : (table.entries.map (·.gram)).Nodup) :
    ∃ ordered : GramTable, ordered.entries.Perm table.entries ∧
      (∀ threshold, Fits threshold table →
        ∃ trie, buildWith threshold table = (ordered, .ok trie) ∧
          trie.stemCount = ordered.size ∧
          (∀ key id, trie.search key = some id ↔ ∃ e, ordered.get? id = some e ∧ e.gram = key) ∧
          (∀ id, id < trie.stemCount → ∃! key, trie.search key = some id) ∧
          (∀ key, key ∉ table.entries.map (·.gram) → trie.search key = none) ∧
          trie.stems = ordered.entries.zipIdx.map fun place => (place.2, place.1.gram)) ∧
      (∀ threshold threshold' trie trie', (buildWith threshold table).2 = .ok trie →
        (buildWith threshold' table).2 = .ok trie' →
          (∀ key, trie'.search key = trie.search key) ∧ trie'.stems = trie.stems) := by
  -- The order is the same for all thresholds, so any of them names it.
  have order : ∀ threshold, (buildWith threshold table).1 = (buildWith 0 table).1 := fun threshold =>
    fst_buildWith_of_perm (.refl _) rfl distinct
  refine ⟨(buildWith 0 table).1, buildWith_perm 0 table, ?numbers, ?thresholds⟩
  case numbers =>
    intro threshold fits
    rcases buildWith_eq_ok_of_fits nonempty positive distinct fits with ⟨trie, succeeds⟩
    have done : buildWith threshold table = ((buildWith 0 table).1, .ok trie) :=
      Prod.ext (order threshold) succeeds
    have built := built_of_buildWith done
    refine ⟨trie, done, ?_, fun key id => built.search_eq_some_iff, fun id => built.existsUnique_key,
      fun key => built.search_eq_none, built.stems_eq⟩
    rw [built.spans.stemCount_eq, List.length_map, GramTable.size]
  case thresholds =>
    intro threshold threshold' trie trie' succeeds succeeds'
    have done : buildWith threshold table = ((buildWith 0 table).1, .ok trie) :=
      Prod.ext (order threshold) succeeds
    have done' : buildWith threshold' table = ((buildWith 0 table).1, .ok trie') :=
      Prod.ext (order threshold') succeeds'
    have built := built_of_buildWith done
    have built' := built_of_buildWith done'
    exact ⟨built.search_eq built', built'.stems_eq.trans built.stems_eq.symm⟩

/-- With tables at all nodes or at none, three stems have the same numbers. -/
theorem buildWith_inverts_of_heavy_branch :
    ∃ ordered trie trie', buildWith 0 heavyBranch = (ordered, .ok trie) ∧
      buildWith (2 ^ 64 - 1) heavyBranch = (ordered, .ok trie') ∧
        (∀ key, trie'.search key = trie.search key) ∧
          ∀ key id, trie.search key = some id ↔ ∃ e, ordered.get? id = some e ∧ e.gram = key := by
  have distinct : (heavyBranch.entries.map (·.gram)).Nodup := by decide
  rcases buildWith_inverts (by decide) (by decide) distinct with ⟨ordered, -, numbers, thresholds⟩
  rcases numbers 0 (by decide +kernel) with ⟨trie, done, -, found, -⟩
  rcases numbers (2 ^ 64 - 1) (by decide +kernel) with ⟨trie', done', -⟩
  have same := thresholds _ _ trie trie' (congrArg Prod.snd done) (congrArg Prod.snd done')
  exact ⟨ordered, trie, trie', done, done', same.1, found⟩

end RankTrie

end GramCensus
