import GramCensus.Proofs.RankTrie.Sizes

/-!
# Numbers follow rank

Building brings a table into rank order, and this order depends on nothing but which entries the table
has: not on the order they came in, and not on the threshold (`RankTrie.entries_buildWith_of_perm`). So
tables with the same entries are built alike, whatever comes of it (`RankTrie.buildWith_of_perm`). Main
statement: of two stems the one that ranks before the other gets the smaller number, and a table in
rank order is left as it is (`RankTrie.buildWith_ranks`).
-/

namespace GramCensus

namespace RankTrie

variable {threshold threshold' : Nat} {table other : GramTable}

/-! ## What building leaves of a table -/

theorem width_buildWith (threshold : Nat) (table : GramTable) :
    (buildWith threshold table).1.width = table.width := by
  rw [buildWith]
  split
  · rfl
  · split
    · rfl
    · rfl

/-- Building leaves the entries as they were arranged, whatever comes of it. -/
theorem entries_buildWith (threshold : Nat) (table : GramTable) :
    (buildWith threshold table).1.entries = (arrange threshold table.width 0 table.entries).entries := by
  rw [buildWith]
  split
  case isTrue none =>
    -- There is nothing to arrange.
    have empty : table.entries = [] := by simpa [GramTable.isEmpty] using none
    have perm := arrange_perm threshold table.width 0 table.entries
    rw [empty] at perm ⊢
    exact perm.eq_nil.symm
  case isFalse =>
    split
    case isTrue narrow => rw [narrow, arrange]
    case isFalse => rfl

/-- A table is given by its width and its entries. -/
theorem table_eq (width_eq : other.width = table.width) (entries_eq : other.entries = table.entries) :
    other = table := by
  cases other
  cases table
  cases width_eq
  cases entries_eq
  rfl

/-! ## One order for the same entries -/

section SameEntries

variable (perm : other.entries.Perm table.entries) (width_eq : other.width = table.width)
  (distinct : (table.entries.map (·.gram)).Nodup)

include perm width_eq distinct

/-- Entries that come in another order are arranged in the same way, for every threshold. -/
theorem entries_arrange_of_perm :
    (arrange threshold' other.width 0 other.entries).entries =
      (arrange threshold table.width 0 table.entries).entries := by
  have distinctOther : (other.entries.map (·.gram)).Nodup := (perm.map _).nodup_iff.2 distinct
  by_cases narrow : table.width = 0
  · -- There is only one stem without bytes.
    rw [width_eq, narrow, arrange, arrange]
    have short : ∀ e ∈ table.entries, e.gram = [] := fun e member =>
      List.length_eq_zero_iff.1 ((table.uniform e member).trans narrow)
    rcases listed : table.entries with _ | ⟨e, _ | ⟨e', rest⟩⟩
    · rw [listed] at perm
      exact perm.eq_nil
    · rw [listed] at perm
      exact perm.eq_singleton
    · rw [listed] at distinct short
      simp [short e, short e'] at distinct
  · have ranked := pairwise_ranksBefore_table narrow
      (@repeated_arrange_table threshold table distinct)
    have rankedOther := pairwise_ranksBefore_table (by rwa [width_eq])
      (@repeated_arrange_table threshold' other distinctOther)
    refine List.Perm.eq_of_pairwise (fun a b _ _ ab ba => absurd ba ab.asymm)
      (rankedOther.imp fun before => before.of_perm perm) ranked ?_
    exact (arrange_perm _ _ _ _).trans (perm.trans (arrange_perm _ _ _ _).symm)

/-- Building leaves the same table, whatever the order of the entries and the threshold. -/
theorem fst_buildWith_of_perm : (buildWith threshold' other).1 = (buildWith threshold table).1 := by
  refine table_eq ?_ ?_
  · rw [width_buildWith, width_buildWith, width_eq]
  · rw [entries_buildWith, entries_buildWith]
    exact entries_arrange_of_perm perm width_eq distinct

/-- Entries that come in another order take the same nodes and child slots. -/
theorem arrange_of_perm :
    arrange threshold other.width 0 other.entries = arrange threshold table.width 0 table.entries := by
  have distinctOther : (other.entries.map (·.gram)).Nodup := (perm.map _).nodup_iff.2 distinct
  have entries := @entries_arrange_of_perm threshold threshold table other perm width_eq distinct
  have unique := @repeated_arrange_table threshold table distinct
  have uniqueOther := @repeated_arrange_table threshold other distinctOther
  have sizes := sizes_arrange length_of_mem_entries unique
  have sizesOther := sizes_arrange length_of_mem_entries uniqueOther
  rw [entries, width_eq] at sizesOther
  rw [width_eq] at entries uniqueOther ⊢
  have nodes := sizesOther.1.trans sizes.1.symm
  have slots := sizesOther.2.trans sizes.2.symm
  cases arranged : arrange threshold table.width 0 table.entries
  cases arrangedOther : arrange threshold table.width 0 other.entries
  rw [arranged, arrangedOther] at entries nodes slots
  rw [arranged] at unique
  rw [arrangedOther] at uniqueOther
  cases entries
  cases nodes
  cases slots
  cases unique
  cases uniqueOther
  rfl

/-- Tables with the same entries are built alike. -/
theorem buildWith_of_perm : buildWith threshold other = buildWith threshold table := by
  refine Prod.ext (fst_buildWith_of_perm perm width_eq distinct) ?_
  have arranged := @arrange_of_perm threshold table other perm width_eq distinct
  have empty : other.isEmpty = table.isEmpty := by
    rw [GramTable.isEmpty, GramTable.isEmpty, Bool.eq_iff_iff, List.isEmpty_iff, List.isEmpty_iff]
    constructor
    · intro none
      rw [none] at perm
      exact perm.symm.eq_nil
    · intro none
      rw [none] at perm
      exact perm.eq_nil
  have size : other.size = table.size := perm.length_eq
  rw [buildWith, buildWith, empty]
  by_cases none : table.isEmpty
  · rw [if_pos none, if_pos none]
  · by_cases narrow : table.width = 0
    · rw [if_neg none, if_neg none, if_pos narrow, if_pos (width_eq.trans narrow)]
    · rw [if_neg none, if_neg none, if_neg narrow, if_neg (by rwa [width_eq])]
      dsimp only
      rw [arranged, width_eq, size]

end SameEntries

/-! ## Numbers and ranks -/

section Built

variable {ordered : GramTable} {trie : RankTrie}

/-- Of two entries that stand at different places, the first one has the better rank. -/
theorem Built.lt_iff_ranksBefore (built : Built threshold table ordered trie) {i j : Nat}
    {first second : Entry} (at_i : ordered.get? i = some first) (at_j : ordered.get? j = some second)
    (differ : first.gram ≠ second.gram) :
    i < j ↔ RanksBefore table.entries first.gram second.gram := by
  rcases List.getElem?_eq_some_iff.1 at_i with ⟨insideI, rfl⟩
  rcases List.getElem?_eq_some_iff.1 at_j with ⟨insideJ, rfl⟩
  constructor
  · intro before
    exact List.pairwise_iff_getElem.1 built.ranked i j insideI insideJ before
  · intro ranks
    rcases Nat.lt_trichotomy i j with before | rfl | behind
    · exact before
    · exact absurd rfl differ
    · exact absurd (List.pairwise_iff_getElem.1 built.ranked j i insideJ insideI behind) ranks.asymm

/-- Tries over the same stems find the same numbers. -/
theorem Built.search_eq {threshold' : Nat} {other : GramTable} {trie' : RankTrie}
    (built : Built threshold table ordered trie) (built' : Built threshold' other ordered trie')
    (key : Bytes) : trie'.search key = trie.search key := by
  apply Option.ext
  intro id
  rw [built.spans.search_eq_some_iff, built'.spans.search_eq_some_iff]

/-- Stems are numbered by rank: building rearranges the entries of a table, and of two stems that part
behind some shared bytes the one whose branch is heavier comes first, or the one with the smaller byte
where the branches are equally heavy. Neither the order of the entries nor the threshold makes any
difference, and a table in rank order is left as it is. -/
theorem buildWith_ranks (done : buildWith threshold table = (ordered, .ok trie)) :
    ordered.entries.Perm table.entries ∧
      (∀ (i j : Nat) (first second : Entry) (shared : Bytes) (a b : UInt8)
        (restFirst restSecond : Bytes),
        ordered.get? i = some first → ordered.get? j = some second →
        first.gram = shared ++ a :: restFirst → second.gram = shared ++ b :: restSecond → a ≠ b →
          (i < j ↔
            weight table.entries (shared ++ [b]) < weight table.entries (shared ++ [a]) ∨
              weight table.entries (shared ++ [a]) = weight table.entries (shared ++ [b]) ∧ a < b)) ∧
      (∀ other : GramTable, other.width = table.width → other.entries.Perm table.entries →
        buildWith threshold other = (ordered, .ok trie) ∧
          ∀ threshold', (buildWith threshold' other).1 = ordered ∧
            ∀ trie', (buildWith threshold' other).2 = .ok trie' →
              ∀ key, trie'.search key = trie.search key) ∧
      buildWith threshold ordered = (ordered, .ok trie) := by
  have built := built_of_buildWith done
  refine ⟨built.perm, ?ranks, ?order, ?again⟩
  case ranks =>
    intro i j first second shared a b restFirst restSecond at_i at_j first_eq second_eq differ
    have apart : first.gram ≠ second.gram := by
      rw [first_eq, second_eq]
      simp [differ]
    rw [built.lt_iff_ranksBefore at_i at_j apart, first_eq, second_eq, ranksBefore_iff differ]
  case order =>
    intro other width_eq perm
    refine ⟨(buildWith_of_perm perm width_eq built.distinct).trans done, fun threshold' => ?_⟩
    have left : (buildWith threshold' other).1 = ordered := by
      rw [@fst_buildWith_of_perm threshold threshold' table other perm width_eq built.distinct, done]
    refine ⟨left, fun trie' succeeds => ?_⟩
    exact built.search_eq (built_of_buildWith (Prod.ext left succeeds))
  case again => exact (buildWith_of_perm built.perm built.width_eq built.distinct).trans done

/-- Two stems of one branch that are together heavier than a third stem. -/
def heavyBranch : GramTable where
  width := 2
  entries := [⟨[2, 1], 50⟩, ⟨[1, 3], 30⟩, ⟨[1, 2], 50⟩]
  uniform := by decide

/-- A stem whose branch is heavier comes first although its own count is smaller, wherever it stood. -/
theorem buildWith_ranks_of_heavy_branch :
    ∃ ordered trie, buildWith 2 heavyBranch = (ordered, .ok trie) ∧
      buildWith 2 ⟨2, [⟨[1, 3], 30⟩, ⟨[1, 2], 50⟩, ⟨[2, 1], 50⟩], by decide⟩ = (ordered, .ok trie) ∧
      ordered.entries = [⟨[1, 2], 50⟩, ⟨[1, 3], 30⟩, ⟨[2, 1], 50⟩] := by
  have entries_eq : (buildWith 2 heavyBranch).1.entries =
      [⟨[1, 2], 50⟩, ⟨[1, 3], 30⟩, ⟨[2, 1], 50⟩] := by
    rw [entries_buildWith]
    decide +kernel
  have perm : [(⟨[1, 3], 30⟩ : Entry), ⟨[1, 2], 50⟩, ⟨[2, 1], 50⟩].Perm heavyBranch.entries := by decide
  have fits : Fits 2 heavyBranch := by decide +kernel
  rcases buildWith_eq_ok_of_fits (by decide) (by decide) (by decide) fits with ⟨trie, succeeds⟩
  have done : buildWith 2 heavyBranch = ((buildWith 2 heavyBranch).1, .ok trie) :=
    Prod.ext rfl succeeds
  have order := (buildWith_ranks done).2.2.1
    ⟨2, [⟨[1, 3], 30⟩, ⟨[1, 2], 50⟩, ⟨[2, 1], 50⟩], by decide⟩ rfl perm
  exact ⟨_, trie, done, order.1, entries_eq⟩

end Built

end RankTrie

end GramCensus
