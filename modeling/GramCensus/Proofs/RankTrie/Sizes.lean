import Mathlib.Algebra.BigOperators.Group.Finset.Basic
import Mathlib.Data.List.Infix
import GramCensus.Proofs.RankTrie.Search

/-!
# How large a trie is

A trie has a node for every beginning of a stem (`nodePaths`), and a node's child slots are as many as
a segment for the bytes that go on from it takes (`slotsNeeded`). Arranging computes these two sizes
(`RankTrie.sizes_arrange_table`), so a trie is only refused where they do not fit
(`RankTrie.buildWith_eq_ok_of_fits`).
-/

namespace GramCensus

open Finset

/-! ## Beginnings of stems -/

/-- All beginnings of some stems, the empty one and the stems included. -/
def nodePaths (stems : List Bytes) : Finset Bytes :=
  (stems.flatMap List.inits).toFinset

/-- The bytes with which stems that begin with a path go on. -/
def nextBytes (stems : List Bytes) (path : Bytes) : Finset UInt8 :=
  (stems.filterMap fun stem => if path.isPrefixOf stem then stem[path.length]? else none).toFinset

/-- The child slots of the inner nodes of a trie over stems that are `width` bytes long. -/
def slotsNeeded (threshold width : Nat) (stems : List Bytes) : Nat :=
  ∑ path ∈ nodePaths stems with path.length < width,
    segmentLength threshold (nextBytes stems path).card

theorem mem_nodePaths {stems : List Bytes} {path : Bytes} :
    path ∈ nodePaths stems ↔ ∃ stem ∈ stems, path <+: stem := by
  simp [nodePaths]

theorem mem_nextBytes {stems : List Bytes} {path : Bytes} {byte : UInt8} :
    byte ∈ nextBytes stems path ↔ ∃ stem ∈ stems, path ++ [byte] <+: stem := by
  rw [nextBytes, List.mem_toFinset, List.mem_filterMap]
  refine exists_congr fun stem => and_congr_right fun _ => ?_
  constructor
  · intro found
    split at found
    case isTrue begins =>
      rcases List.isPrefixOf_iff_prefix.1 begins with ⟨rest, rfl⟩
      cases rest with
      | nil => simp at found
      | cons next rest =>
        have same : next = byte := by simpa using found
        exact ⟨rest, by simp [same]⟩
    case isFalse => cases found
  · rintro ⟨rest, rfl⟩
    have begins : path.isPrefixOf (path ++ [byte] ++ rest) = true := by
      rw [List.isPrefixOf_iff_prefix, List.append_assoc]
      exact List.prefix_append _ _
    rw [if_pos begins]
    simp

theorem nodePaths_of_perm {stems others : List Bytes} (perm : others.Perm stems) :
    nodePaths others = nodePaths stems := by
  ext path
  simp only [mem_nodePaths, perm.mem_iff]

theorem slotsNeeded_of_perm {stems others : List Bytes} (perm : others.Perm stems)
    (threshold width : Nat) : slotsNeeded threshold width others = slotsNeeded threshold width stems := by
  have next : nextBytes others = nextBytes stems := by
    funext path
    ext byte
    simp only [mem_nextBytes, perm.mem_iff]
  rw [slotsNeeded, slotsNeeded, nodePaths_of_perm perm, next]

/-! ## Beginnings of grouped stems -/

theorem cons_mem_nodePaths {groups : List (UInt8 × List Bytes)} {byte : UInt8} {path : Bytes} :
    byte :: path ∈ nodePaths (groupedStems groups) ↔
      ∃ group ∈ groups, group.1 = byte ∧ path ∈ nodePaths group.2 := by
  simp only [mem_nodePaths, groupedStems, List.mem_flatMap, List.mem_map]
  constructor
  · rintro ⟨_, ⟨group, listed, rest, member, rfl⟩, begins⟩
    rw [List.cons_prefix_cons] at begins
    exact ⟨group, listed, begins.1.symm, rest, member, begins.2⟩
  · rintro ⟨group, listed, rfl, rest, member, begins⟩
    exact ⟨_, ⟨group, listed, rest, member, rfl⟩, List.cons_prefix_cons.2 ⟨rfl, begins⟩⟩

section Groups

variable {groups : List (UInt8 × List Bytes)}

/-- A sum over the beginnings of grouped stems, the empty one apart, is a sum over the groups. -/
theorem sum_erase_nodePaths (distinct : (groups.map (·.1)).Nodup) (size : Bytes → Nat) :
    ∑ path ∈ (nodePaths (groupedStems groups)).erase [], size path =
      (groups.map fun group => ∑ path ∈ nodePaths group.2, size (group.1 :: path)).sum := by
  induction groups with
  | nil => rfl
  | cons group groups ih =>
    rcases List.nodup_cons.1 distinct with ⟨absent, distinctRest⟩
    -- The beginnings in the first group have its byte in front, and no others have.
    have split : (nodePaths (groupedStems (group :: groups))).erase [] =
        (nodePaths group.2).image (group.1 :: ·) ∪ (nodePaths (groupedStems groups)).erase [] := by
      ext path
      cases path with
      | nil => simp
      | cons byte path =>
        simp only [mem_erase, ne_eq, reduceCtorEq, not_false_eq_true, true_and, mem_union, mem_image,
          cons_mem_nodePaths, List.mem_cons, exists_eq_or_imp, List.cons.injEq]
        refine or_congr ⟨fun here => ⟨path, here.2, here.1, rfl⟩, ?_⟩ .rfl
        rintro ⟨_, here, rfl, rfl⟩
        exact ⟨rfl, here⟩
    have apart : Disjoint ((nodePaths group.2).image (group.1 :: ·))
        ((nodePaths (groupedStems groups)).erase []) := by
      rw [Finset.disjoint_left]
      intro path here there
      rcases mem_image.1 here with ⟨rest, -, rfl⟩
      rcases cons_mem_nodePaths.1 (mem_of_mem_erase there) with ⟨other, listed, same, -⟩
      exact absent (List.mem_map.2 ⟨other, listed, same⟩)
    rw [split, sum_union apart, ih distinctRest, sum_image fun _ _ _ _ same => (List.cons.inj same).2,
      List.map_cons, List.sum_cons]

theorem sum_nodePaths (distinct : (groups.map (·.1)).Nodup) (some : groupedStems groups ≠ [])
    (size : Bytes → Nat) :
    ∑ path ∈ nodePaths (groupedStems groups), size path =
      size [] + (groups.map fun group => ∑ path ∈ nodePaths group.2, size (group.1 :: path)).sum := by
  rcases List.exists_mem_of_ne_nil _ some with ⟨stem, member⟩
  have empty : [] ∈ nodePaths (groupedStems groups) :=
    mem_nodePaths.2 ⟨stem, member, List.nil_prefix⟩
  rw [← sum_erase_nodePaths distinct, add_sum_erase _ _ empty]

theorem card_nextBytes_nil (distinct : (groups.map (·.1)).Nodup)
    (nonempty : ∀ group ∈ groups, group.2 ≠ []) :
    (nextBytes (groupedStems groups) []).card = groups.length := by
  have same : nextBytes (groupedStems groups) [] = (groups.map (·.1)).toFinset := by
    ext byte
    rw [mem_nextBytes, List.mem_toFinset, List.mem_map, List.nil_append, ← mem_nodePaths,
      cons_mem_nodePaths]
    refine exists_congr fun group => and_congr_right fun listed => and_iff_left ?_
    rcases List.exists_mem_of_ne_nil _ (nonempty group listed) with ⟨tail, member⟩
    exact mem_nodePaths.2 ⟨tail, member, List.nil_prefix⟩
  rw [same, List.toFinset_card_of_nodup distinct, List.length_map]

theorem nextBytes_cons (distinct : (groups.map (·.1)).Nodup) {group : UInt8 × List Bytes}
    (listed : group ∈ groups) (path : Bytes) :
    nextBytes (groupedStems groups) (group.1 :: path) = nextBytes group.2 path := by
  ext byte
  rw [mem_nextBytes, mem_nextBytes, ← mem_nodePaths, ← mem_nodePaths, List.cons_append,
    cons_mem_nodePaths]
  constructor
  · rintro ⟨other, listed', same, member⟩
    rwa [List.inj_on_of_nodup_map distinct listed' listed same] at member
  · intro member
    exact ⟨group, listed, rfl, member⟩

end Groups

/-! ## Sizes of layouts -/

namespace Layout

variable {remaining : Nat} {tails : List Bytes}

/-- There is one node for each beginning of a stem. -/
theorem nodesBelow_add_one (grouped : Grouped remaining tails) :
    nodesBelow remaining tails + 1 = (nodePaths tails).card := by
  induction remaining generalizing tails with
  | zero =>
    rw [grouped]
    rfl
  | succ remaining ih =>
    have some := grouped.ne_nil
    rcases grouped with ⟨groups, rfl, -, distinct, each⟩
    have shapes := runShapes_splitRuns distinct (fun group listed => (each group listed).ne_nil) 0
    have paths := sum_nodePaths distinct some fun _ => 1
    simp only [← card_eq_sum_ones] at paths
    rw [nodesBelow, shapes]
    refine Eq.trans ?_ paths.symm
    -- Each group has a node of its own above the nodes below it.
    have count : (groups.map fun group => (nodePaths group.2).card).sum =
        groups.length + (groups.map fun group => nodesBelow remaining group.2).sum := by
      rw [List.map_congr_left fun group listed => (ih (each group listed)).symm, List.sum_map_add,
        List.map_const', List.sum_replicate_nat, Nat.mul_one, Nat.add_comm]
    omega

theorem slotsBelow_eq (threshold : Nat) (grouped : Grouped remaining tails) :
    slotsBelow threshold remaining tails = slotsNeeded threshold remaining tails := by
  induction remaining generalizing tails with
  | zero => simp [slotsBelow, slotsNeeded]
  | succ remaining ih =>
    have some := grouped.ne_nil
    rcases grouped with ⟨groups, rfl, -, distinct, each⟩
    have several : ∀ group ∈ groups, group.2 ≠ [] := fun group listed => (each group listed).ne_nil
    have shapes := runShapes_splitRuns distinct several 0
    rw [slotsBelow, shapes, slotsNeeded, sum_filter]
    refine Eq.trans ?_ (sum_nodePaths distinct some _).symm
    rw [List.length_nil, if_pos (Nat.succ_pos remaining)]
    congr 1
    · exact congrArg _ (card_nextBytes_nil distinct several).symm
    · congr 1
      apply List.map_congr_left
      intro group listed
      rw [ih (each group listed), slotsNeeded, sum_filter]
      refine sum_congr rfl fun path _ => ?_
      have next := nextBytes_cons distinct listed path
      rw [groupedStems] at next
      simp only [List.length_cons, Nat.add_lt_add_iff_right, next]

end Layout

/-! ## Tries that fit -/

namespace RankTrie

variable {threshold : Nat} {table : GramTable}

/-- The numbers of the nodes and of the child slots of the trie over a table fit 32 bits. -/
def Fits (threshold : Nat) (table : GramTable) : Prop :=
  (nodePaths (table.entries.map (·.gram))).card ≤ largestArray ∧
    slotsNeeded threshold table.width (table.entries.map (·.gram)) ≤ largestArray

instance : Decidable (Fits threshold table) :=
  inferInstanceAs (Decidable (_ ∧ _))

/-- Arranging counts the beginnings of the stems and the child slots that they need. -/
theorem sizes_arrange_table (nonempty : table.entries ≠ []) (positive : 0 < table.width)
    (distinct : (table.entries.map (·.gram)).Nodup) :
    (arrange threshold table.width 0 table.entries).nodes + 1 =
        (nodePaths (table.entries.map (·.gram))).card ∧
      (arrange threshold table.width 0 table.entries).slots =
        slotsNeeded threshold table.width (table.entries.map (·.gram)) := by
  have unique := @repeated_arrange_table threshold table distinct
  rcases sizes_arrange length_of_mem_entries unique with ⟨nodes, slots⟩
  have grouped := grouped_arrange length_of_mem_entries nonempty
    (fun last => absurd last (Nat.ne_of_gt positive)) unique
  have perm := (arrange_perm threshold table.width 0 table.entries).map (·.gram)
  simp only [List.drop_zero] at nodes slots grouped
  rw [nodes, slots, Layout.nodesBelow_add_one grouped, Layout.slotsBelow_eq threshold grouped,
    nodePaths_of_perm perm, slotsNeeded_of_perm perm]
  exact ⟨rfl, rfl⟩

/-- Stems that are all different are built into a trie that fits. -/
theorem buildWith_eq_ok_of_fits (nonempty : table.entries ≠ []) (positive : 0 < table.width)
    (distinct : (table.entries.map (·.gram)).Nodup) (fits : Fits threshold table) :
    ∃ trie, (buildWith threshold table).2 = .ok trie := by
  rcases @sizes_arrange_table threshold table nonempty positive distinct with ⟨nodes, slots⟩
  rcases fits with ⟨nodesFit, slotsFit⟩
  rw [← nodes] at nodesFit
  rw [← slots] at slotsFit
  exact ⟨_, (snd_buildWith nonempty positive distinct).trans (if_neg (by omega))⟩

end RankTrie

end GramCensus
