import GramCensus.RankTrie.Basic
import GramCensus.Proofs.RankTrie.Layout
import Mathlib.Data.List.Nodup

/-!
# Numbers of stems

A trie that was built gives each stem the number of its position in the arranged table, and gives a
number to nothing else (`RankTrie.Over.search_eq_some_iff`); it lists its stems in the order of
their numbers (`RankTrie.Over.stems_eq`). Which of the two kinds of segment a node has makes no
difference. A table without repeated stems is always built, unless the trie would be too large
(`RankTrie.buildWith_eq_ok`).
-/

namespace GramCensus

/-! ## Segments -/

namespace Layout

/-- A table holds the children's numbers at their bytes, and zero elsewhere. -/
theorem getElem?_tableSegment {children : List UInt8} (distinct : children.Nodup) (first : Nat)
    (byte : UInt8) :
    (tableSegment first children)[byte.toNat]? =
      some (if byte ∈ children then first + children.idxOf byte else 0) :=
  getElem?_byteTable distinct 0 (first + ·) byte

theorem toList_tableSegment {children : List UInt8} (distinct : children.Nodup) (first : Nat) :
    (tableSegment first children).toList =
      allBytes.map fun byte => if byte ∈ children then first + children.idxOf byte else 0 := by
  have size : (tableSegment first children).size = 256 := size_byteTable 0 (first + ·) children
  refine List.ext_getElem? ?_
  intro i
  by_cases inside : i < 256
  · have value : i.toUInt8.toNat = i := by
      rw [Nat.toUInt8_eq, UInt8.toNat_ofNat']
      omega
    have held := getElem?_tableSegment distinct first i.toUInt8
    rw [value, ← Array.getElem?_toList] at held
    rw [held, List.getElem?_map, allBytes, List.getElem?_map, List.getElem?_range inside]
    rfl
  · rw [List.getElem?_eq_none (by rw [Array.length_toList]; omega),
      List.getElem?_eq_none (by simp [allBytes]; omega)]

theorem map_idxOf_eq_range' {children : List UInt8} (distinct : children.Nodup) (first : Nat) :
    (children.map fun byte => first + children.idxOf byte) =
      List.range' first children.length := by
  refine List.ext_getElem (by simp) ?_
  intro i inside _
  rw [List.length_map] at inside
  rw [List.getElem_map, distinct.idxOf_getElem i inside, List.getElem_range', Nat.one_mul]

/-- Either kind of segment holds the numbers of all children, beside zeros. -/
theorem filter_segment_perm {children : List UInt8} (distinct : children.Nodup) (threshold : Nat)
    {first : Nat} (positive : 0 < first) :
    ((segment threshold first children).toList.filter (· ≠ 0)).Perm
      (List.range' first children.length) := by
  rw [segment]
  split
  case isTrue =>
    -- The numbers in a table stand at the bytes of the children, in the order of the bytes.
    have placed : (allBytes.filter (· ∈ children)).Perm children := by
      refine (List.perm_ext_iff_of_nodup (nodup_allBytes.filter _) distinct).2 ?_
      intro byte
      simp [mem_allBytes]
    rw [toList_tableSegment distinct, ← map_idxOf_eq_range' distinct, List.filter_map]
    have nonzero : (allBytes.filter ((fun slot : Nat => decide (slot ≠ 0)) ∘
        fun byte => if byte ∈ children then first + children.idxOf byte else 0)) =
          allBytes.filter (· ∈ children) := by
      apply List.filter_congr
      intro byte _
      by_cases held : byte ∈ children
      · simp [held]
        omega
      · simp [held]
    rw [nonzero]
    refine List.Perm.trans (.of_eq (List.map_congr_left fun byte member => ?_)) (placed.map _)
    rw [if_pos (by simpa using (List.mem_filter.1 member).2)]
  case isFalse =>
    have numbers : (children.zipIdx.map fun child => first + child.2) =
        List.range' first children.length := by
      rw [← map_idxOf_eq_range' distinct]
      refine List.ext_getElem (by simp) ?_
      intro i inside _
      rw [List.length_map, List.length_zipIdx] at inside
      simp [distinct.idxOf_getElem i inside]
    rw [listSegment, List.toList_toArray, ← numbers]
    refine List.Perm.trans (.of_eq (List.filter_eq_self.2 fun slot member => ?_))
      ((stableSort_perm _ _).map _)
    rcases List.mem_map.1 member with ⟨child, -, rfl⟩
    simp
    omega

end Layout

namespace RankTrie

/-- Scanning children in the order of their bytes finds the one with the byte that is looked for. -/
theorem scanSegment_eq_find? {layout : Layout} {first : Nat} {numbered : List (UInt8 × Nat)}
    (sorted : numbered.Pairwise fun a b => a.1 ≤ b.1)
    (edges : ∀ child ∈ numbered, layout.edges.getD (first + child.2) 0 = child.1) (byte : UInt8) :
    scanSegment layout byte (numbered.map fun child => first + child.2) =
      (numbered.find? fun child => child.1 == byte).map fun child => first + child.2 := by
  induction numbered with
  | nil => rfl
  | cons child numbered ih =>
    rcases List.pairwise_cons.1 sorted with ⟨least, sortedRest⟩
    rcases List.forall_mem_cons.1 edges with ⟨edge, edgesRest⟩
    rw [List.map_cons, scanSegment, edge, List.find?_cons]
    by_cases same : child.1 = byte
    · simp [same]
    · have differs : (child.1 == byte) = false := by simpa using same
      simp only [same, if_false, differs]
      split
      case isTrue smaller =>
        -- Scanning stops early, behind the place where the byte would have been.
        have none : numbered.find? (fun child => child.1 == byte) = none := by
          refine List.find?_eq_none.2 fun other member found => ?_
          have above := least other member
          rw [beq_iff_eq.1 found] at above
          exact UInt8.not_le.2 smaller above
        rw [none]
        rfl
      case isFalse => exact ih sortedRest edgesRest

/-- In a list of the children's numbers by their bytes, scanning finds every child, and nothing
else. -/
theorem scanSegment_listSegment {layout : Layout} {first : Nat} {children : List UInt8}
    (distinct : children.Nodup)
    (edges : ∀ i byte, children[i]? = some byte → layout.edges.getD (first + i) 0 = byte)
    (byte : UInt8) :
    scanSegment layout byte (Layout.listSegment first children).toList =
      if byte ∈ children then some (first + children.idxOf byte) else none := by
  have sorted := pairwise_stableSort (fun a b : UInt8 × Nat => a.1 ≤ b.1)
    (fun a b c ab bc => by simp only [decide_eq_true_eq] at ab bc ⊢; exact UInt8.le_trans ab bc)
    (fun a b => by
      simp only [Bool.or_eq_true, decide_eq_true_eq]
      exact UInt8.le_total a.1 b.1) children.zipIdx
  have numbered : ∀ child ∈ stableSort (fun a b : UInt8 × Nat => a.1 ≤ b.1) children.zipIdx,
      children[child.2]? = some child.1 := by
    intro child member
    exact List.mem_zipIdx_iff_getElem?.1 (mem_stableSort.1 member)
  rw [Layout.listSegment, List.toList_toArray, scanSegment_eq_find? (sorted.imp of_decide_eq_true)
    fun child member => edges child.2 child.1 (numbered child member)]
  by_cases member : byte ∈ children
  · rw [if_pos member]
    cases found : (stableSort (fun a b : UInt8 × Nat => a.1 ≤ b.1) children.zipIdx).find?
        fun child => child.1 == byte with
    | none =>
      have missing := List.find?_eq_none.1 found (byte, children.idxOf byte) (by
        rw [mem_stableSort, List.mem_zipIdx_iff_getElem?]
        exact List.getElem?_eq_some_iff.2
          ⟨List.idxOf_lt_length_of_mem member, List.getElem_idxOf _⟩)
      simp at missing
    | some child =>
      -- The numbers tell children apart, so the child found is the one at the byte's position.
      have listed := numbered child (List.mem_of_find?_eq_some found)
      have same : child.1 = byte := by simpa using List.find?_some found
      rcases List.getElem?_eq_some_iff.1 listed with ⟨inside, value⟩
      rw [Option.map_some, ← same, ← value, distinct.idxOf_getElem child.2 inside]
  · rw [if_neg member, Option.map_eq_none_iff, List.find?_eq_none]
    intro child held found
    rw [← beq_iff_eq.1 found] at member
    exact member (List.mem_of_getElem? (numbered child held))

/-! ## The children of a node -/

section Node

variable {trie : RankTrie} {node first start : Nat} {children : List UInt8}

private theorem getD_eq_of_getElem? {α : Type} {array : Array α} {i : Nat} {x y : α}
    (held : array.toList[i]? = some x) : array.getD i y = x := by
  rw [Array.getD_eq_getD_getElem?, ← Array.getElem?_toList, held]
  rfl

/-- The segment of a node that was placed. -/
theorem segmentOf_eq (fanOut : trie.layout.fanOuts.toList[node]? = some children.length)
    (link : trie.layout.links.toList[node]? = some start)
    (segment : StandsAt (Layout.segment trie.threshold first children).toList start
      trie.layout.slots) :
    trie.segmentOf node = (Layout.segment trie.threshold first children).toList := by
  rcases segment with ⟨before, after, slots_eq, rfl⟩
  rw [segmentOf, getD_eq_of_getElem? fanOut, getD_eq_of_getElem? link, Array.toList_extract,
    slots_eq, List.extract_eq_take_drop, Nat.add_sub_cancel_left, List.append_assoc, List.drop_left,
    ← Layout.size_segment trie.threshold first, ← Array.length_toList, List.take_left]

/-- A node finds each of its children by the byte in front of it, and no other child. -/
theorem child?_eq (positive : 0 < first) (distinct : children.Nodup)
    (fanOut : trie.layout.fanOuts.toList[node]? = some children.length)
    (link : trie.layout.links.toList[node]? = some start)
    (segment : StandsAt (Layout.segment trie.threshold first children).toList start
      trie.layout.slots)
    (edges : StandsAt children first trie.layout.edges) (byte : UInt8) :
    trie.child? node byte =
      if byte ∈ children then some (first + children.idxOf byte) else none := by
  have whole := segmentOf_eq fanOut link segment
  rw [child?, whole, getD_eq_of_getElem? fanOut, getD_eq_of_getElem? link]
  by_cases many : trie.threshold ≤ children.length
  · rw [Layout.segment, if_pos many] at segment
    have held := Layout.getElem?_tableSegment distinct first byte
    rw [← Array.getElem?_toList] at held
    simp only [if_pos many, getD_eq_of_getElem? (segment.getElem? held)]
    by_cases member : byte ∈ children
    · simp only [if_pos member]
      split
      case h_1 zero => omega
      case h_2 => rfl
    · simp only [if_neg member]
  · simp only [if_neg many, Layout.segment]
    exact scanSegment_listSegment distinct
      (fun i byte held => getD_eq_of_getElem? (edges.getElem? held)) byte

/-- A node lists its children in the order of their numbers. -/
theorem childrenInRank_eq (positive : 0 < first) (distinct : children.Nodup)
    (fanOut : trie.layout.fanOuts.toList[node]? = some children.length)
    (link : trie.layout.links.toList[node]? = some start)
    (segment : StandsAt (Layout.segment trie.threshold first children).toList start
      trie.layout.slots) :
    trie.childrenInRank node = List.range' first children.length := by
  rw [childrenInRank, segmentOf_eq fanOut link segment]
  have sorted := pairwise_stableSort (fun a b : Nat => a ≤ b)
    (fun a b c ab bc => by simp only [decide_eq_true_eq] at ab bc ⊢; omega)
    (fun a b => by simp only [Bool.or_eq_true, decide_eq_true_eq]; omega)
    ((Layout.segment trie.threshold first children).toList.filter (· ≠ 0))
  refine List.Perm.eq_of_pairwise (fun a b _ _ ab ba => ?_) (sorted.imp of_decide_eq_true)
    ((List.pairwise_lt_range' 1).imp Nat.le_of_lt)
    ((stableSort_perm _ _).trans (Layout.filter_segment_perm distinct trie.threshold positive))
  exact Nat.le_antisymm ab ba

end Node

/-! ## The stems below a node -/

variable {trie : RankTrie} {remaining node : Nat} {run : Run}

/-- An inner node finds the children that hold the parts of its run. -/
theorem child?_of_mem (holds : trie.layout.Holds trie.threshold (remaining + 1) node run)
    (distinct : ((splitRuns run.start run.tails).map (·.1)).Nodup) {child : UInt8 × Run}
    (member : child ∈ splitRuns run.start run.tails) :
    ∃ next, trie.child? node child.1 = some next ∧
      trie.layout.Holds trie.threshold remaining next child.2 := by
  rcases holds with ⟨first, start, positive, fanOut, link, segment, edges, below⟩
  rcases List.getElem_of_mem member with ⟨i, inside, rfl⟩
  have position := distinct.idxOf_getElem i (by simpa using inside)
  rw [List.getElem_map] at position
  refine ⟨first + i, ?_, below i _ (List.getElem?_eq_getElem inside)⟩
  rw [child?_eq positive distinct fanOut link segment edges,
    if_pos (List.mem_map_of_mem member), position]

theorem child?_eq_none (holds : trie.layout.Holds trie.threshold (remaining + 1) node run)
    (distinct : ((splitRuns run.start run.tails).map (·.1)).Nodup) {byte : UInt8}
    (absent : byte ∉ (splitRuns run.start run.tails).map (·.1)) : trie.child? node byte = none := by
  rcases holds with ⟨first, start, positive, fanOut, link, segment, edges, -⟩
  rw [child?_eq positive distinct fanOut link segment edges, if_neg absent]

/-- The node reached along a key is a leaf with the key's position, and no node is reached along
anything that is no stem of the run. -/
theorem descend?_eq_some_iff (holds : trie.layout.Holds trie.threshold remaining node run)
    (grouped : Grouped remaining run.tails) {key : Bytes} (length_eq : key.length = remaining)
    {id : Nat} :
    (trie.descend? node key).map (fun leaf => trie.layout.links.getD leaf 0) = some id ↔
      (key, id) ∈ run.positions := by
  induction remaining generalizing node run key with
  | zero =>
    obtain rfl := List.length_eq_zero_iff.1 length_eq
    rw [descend?, Option.map_some, getD_eq_of_getElem? holds, Run.positions, grouped]
    simp [eq_comm]
  | succ remaining ih =>
    rcases grouped.splitRuns run.start with ⟨distinct, groupedBelow, long⟩
    rcases List.exists_cons_of_length_eq_add_one length_eq with ⟨byte, rest, rfl⟩
    have restLength : rest.length = remaining := by simpa using length_eq
    rw [descend?, Run.positions, ← flatMap_splitRuns long, List.mem_flatMap]
    by_cases member : byte ∈ (splitRuns run.start run.tails).map (·.1)
    · rcases List.mem_map.1 member with ⟨child, held, rfl⟩
      rcases child?_of_mem holds distinct held with ⟨next, found, below⟩
      rw [found, Option.bind_some, ih below (groupedBelow child held) restLength]
      constructor
      · intro inRun
        exact ⟨child, held, List.mem_map.2 ⟨(rest, id), inRun, rfl⟩⟩
      · rintro ⟨child', held', inRun⟩
        rcases List.mem_map.1 inRun with ⟨stem, inRun, eq⟩
        simp only [Prod.mk.injEq, List.cons.injEq] at eq
        -- No other child has this byte.
        obtain rfl := List.inj_on_of_nodup_map distinct held' held eq.1.1
        rwa [← eq.1.2, ← eq.2]
    · rw [child?_eq_none holds distinct member]
      constructor
      · intro found
        cases found
      · rintro ⟨child, held, inRun⟩
        rcases List.mem_map.1 inRun with ⟨stem, -, eq⟩
        simp only [Prod.mk.injEq, List.cons.injEq] at eq
        exact absurd (List.mem_map.2 ⟨child, held, eq.1.1⟩) member

/-- The stems below a node are those of its run, by their positions. -/
theorem stemsBelow_eq (holds : trie.layout.Holds trie.threshold remaining node run)
    (grouped : Grouped remaining run.tails) (path : Bytes) :
    trie.stemsBelow remaining path node = run.positions.map fun stem => (stem.2, path ++ stem.1) := by
  induction remaining generalizing node run path with
  | zero =>
    rw [stemsBelow, getD_eq_of_getElem? holds, Run.positions, grouped]
    simp
  | succ remaining ih =>
    rcases holds with ⟨first, start, positive, fanOut, link, segment, edges, below⟩
    rcases grouped.splitRuns run.start with ⟨distinct, groupedBelow, long⟩
    rw [stemsBelow, childrenInRank_eq positive distinct fanOut link segment, Run.positions,
      ← flatMap_splitRuns long, List.map_flatMap, List.length_map]
    -- Children in the order of their numbers are the runs in their order.
    have numbered : List.range' first (splitRuns run.start run.tails).length =
        ((splitRuns run.start run.tails).zipIdx first).map (·.2) :=
      (List.zipIdx_map_snd first _).symm
    rw [numbered, List.flatMap_map]
    have unnumbered := List.zipIdx_map_fst first (splitRuns run.start run.tails)
    conv_rhs => rw [← unnumbered, List.flatMap_map]
    apply List.flatMap_congr
    intro child member
    rcases List.mem_zipIdx_iff_le_and_getElem?_sub.1 member with ⟨behind, listed⟩
    rcases Nat.exists_eq_add_of_le behind with ⟨i, eq⟩
    rw [eq, Nat.add_sub_cancel_left] at listed
    have edge : trie.layout.edges.getD child.2 0 = child.1.1 := by
      rw [eq]
      refine getD_eq_of_getElem? (edges.getElem? ?_)
      rw [List.getElem?_map, listed]
      rfl
    rw [edge, eq, ih (below i _ listed) (groupedBelow _ (List.mem_of_getElem? listed)), List.map_map]
    simp

/-! ## The stems of a trie -/

/-- A trie is over some stems if it is laid out over them, in their order. -/
structure Over (trie : RankTrie) (stems : List Bytes) : Prop where
  layout_eq : trie.layout = Layout.ofStems trie.threshold trie.stemLength stems
  stemCount_eq : trie.stemCount = stems.length
  grouped : Grouped trie.stemLength stems

namespace Over

variable {stems : List Bytes}

theorem holds_root (spans : trie.Over stems) :
    trie.layout.Holds trie.threshold trie.stemLength 0 ⟨0, stems⟩ := by
  have awaits : Layout.start.Awaits [Run.mk 0 stems].length := ⟨rfl, rfl, by decide⟩
  rw [spans.layout_eq]
  exact Layout.holds_placeLevels awaits (show [Run.mk 0 stems][0]? = some ⟨0, stems⟩ from rfl)

theorem length_eq (spans : trie.Over stems) {stem : Bytes} (member : stem ∈ stems) :
    stem.length = trie.stemLength :=
  spans.grouped.length_eq member

/-- A trie numbers exactly its stems, each by its position. -/
theorem search_eq_some_iff (spans : trie.Over stems) {key : Bytes} {id : Nat} :
    trie.search key = some id ↔ stems[id]? = some key := by
  rw [search]
  split
  case isTrue fits =>
    rw [descend?_eq_some_iff spans.holds_root spans.grouped fits, Run.positions,
      List.mem_zipIdx_iff_getElem?]
  case isFalse misfit =>
    constructor
    · intro found
      cases found
    · intro listed
      exact absurd (spans.length_eq (List.mem_of_getElem? listed)) misfit

theorem stems_eq (spans : trie.Over stems) :
    trie.stems = stems.zipIdx.map fun stem => (stem.2, stem.1) := by
  rw [stems_eq_stemsBelow, stemsBelow_eq spans.holds_root spans.grouped]
  rfl

end Over

/-! ## Building -/

/-- What a table and a trie are like behind a successful building. -/
structure Built (threshold : Nat) (table ordered : GramTable) (trie : RankTrie) : Prop where
  spans : trie.Over (ordered.entries.map (·.gram))
  perm : ordered.entries.Perm table.entries
  ranked : ordered.entries.Pairwise fun a b => RanksBefore table.entries a.gram b.gram
  width_eq : ordered.width = table.width
  stemLength_eq : trie.stemLength = table.width
  threshold_eq : trie.threshold = threshold
  positive : 0 < table.width
  nonempty : table.entries ≠ []

/-- Building rearranges a table, whatever comes of it. -/
theorem buildWith_perm (threshold : Nat) (table : GramTable) :
    (buildWith threshold table).1.entries.Perm table.entries := by
  rw [buildWith]
  split
  · exact .refl _
  · split
    · exact .refl _
    · exact arrange_perm _ _ _ _

theorem length_of_mem_entries {table : GramTable} :
    ∀ e ∈ table.entries, e.gram.length = 0 + table.width := by
  intro e member
  rw [Nat.zero_add]
  exact table.uniform e member

/-- The entries of a table are arranged in rank order. -/
theorem pairwise_ranksBefore_table {threshold : Nat} {table : GramTable} (wide : table.width ≠ 0)
    (unique : (arrange threshold table.width 0 table.entries).repeated = none) :
    (arrange threshold table.width 0 table.entries).entries.Pairwise
      fun a b => RanksBefore table.entries a.gram b.gram := by
  -- Nothing is shared at the root, so all entries begin alike.
  rw [← beginning_nil table.entries] at unique
  have order := @pairwise_ranksBefore_arrange threshold table.width table.entries []
    length_of_mem_entries (fun last => absurd last wide) unique
  rwa [beginning_nil] at order

/-- A table without repeated stems is arranged to the end. -/
theorem repeated_arrange_table {threshold : Nat} {table : GramTable}
    (distinct : (table.entries.map (·.gram)).Nodup) :
    (arrange threshold table.width 0 table.entries).repeated = none := by
  have unique := @repeated_arrange_eq_none threshold table.width table.entries []
    length_of_mem_entries distinct
  rwa [beginning_nil, List.length_nil] at unique

/-- A trie that was built is over the arranged stems. -/
theorem built_of_buildWith {threshold : Nat} {table ordered : GramTable} {trie : RankTrie}
    (built : buildWith threshold table = (ordered, .ok trie)) :
    Built threshold table ordered trie := by
  have perm := buildWith_perm threshold table
  rw [built] at perm
  rw [buildWith] at built
  split at built
  case isTrue => simp at built
  case isFalse nonempty =>
    split at built
    case isTrue => simp at built
    case isFalse wide =>
      have nonempty : table.entries ≠ [] := by simpa [GramTable.isEmpty] using nonempty
      rcases Prod.mk.inj built with ⟨rfl, result⟩
      split at result
      case h_1 => cases result
      case h_2 unique =>
        have grouped := grouped_arrange length_of_mem_entries nonempty
          (fun last => absurd last wide) unique
        have ranked := pairwise_ranksBefore_table wide unique
        split at result
        · cases result
        · dsimp only at result
          split at result
          · cases result
          · split at result
            · cases result
            · cases result
              exact {
                spans := {
                  layout_eq := rfl
                  stemCount_eq := by
                    rw [List.length_map]
                    exact perm.length_eq.symm
                  grouped := by
                    simp only [List.drop_zero] at grouped
                    exact grouped }
                perm, ranked, nonempty
                width_eq := rfl
                stemLength_eq := rfl
                threshold_eq := rfl
                positive := Nat.pos_of_ne_zero wide }

/-- A table from which a trie was built has no stem twice. -/
theorem Built.distinct {threshold : Nat} {table ordered : GramTable} {trie : RankTrie}
    (built : Built threshold table ordered trie) : (table.entries.map (·.gram)).Nodup := by
  refine (built.perm.map _).nodup_iff.1 ?_
  rw [List.nodup_iff_pairwise_ne, List.pairwise_map]
  refine built.ranked.imp fun {a b} before same => ?_
  rw [same] at before
  exact before.asymm before

/-- The layout of the stems of a table as they were arranged. -/
def placed (threshold : Nat) (table : GramTable) : Layout :=
  Layout.ofStems threshold table.width
    ((arrange threshold table.width 0 table.entries).entries.map (·.gram))

/-- The sizes that were announced are those of the layout. -/
theorem size_placed {threshold : Nat} {table : GramTable}
    (distinct : (table.entries.map (·.gram)).Nodup) :
    (placed threshold table).edges.size =
        (arrange threshold table.width 0 table.entries).nodes + 1 ∧
      (placed threshold table).slots.size =
        (arrange threshold table.width 0 table.entries).slots := by
  have unique := @repeated_arrange_table threshold table distinct
  rcases sizes_arrange length_of_mem_entries unique with ⟨nodes, slots⟩
  obtain ⟨edges, segments⟩ := Layout.size_placeLevels threshold table.width
    [⟨0, (arrange threshold table.width 0 table.entries).entries.map (·.gram)⟩] Layout.start
  simp only [List.drop_zero] at nodes slots
  constructor
  · rw [placed, Layout.ofStems, edges, nodes, Nat.add_comm]
    simp [Layout.start]
  · rw [placed, Layout.ofStems, segments, slots]
    simp [Layout.start]

/-- Stems that are all different are built into a trie over their layout, unless it would be too
large. -/
theorem snd_buildWith {threshold : Nat} {table : GramTable} (nonempty : table.entries ≠ [])
    (positive : 0 < table.width) (distinct : (table.entries.map (·.gram)).Nodup) :
    (buildWith threshold table).2 =
      if largestArray < (arrange threshold table.width 0 table.entries).nodes + 1 ∨
          largestArray < (arrange threshold table.width 0 table.entries).slots then
        .error (.settings (.trieTooLarge ((arrange threshold table.width 0 table.entries).nodes + 1)
          (arrange threshold table.width 0 table.entries).slots))
      else .ok ⟨placed threshold table, table.width, table.size, threshold⟩ := by
  have unique := @repeated_arrange_table threshold table distinct
  rcases @size_placed threshold table distinct with ⟨nodes, slots⟩
  rw [placed] at nodes slots
  simp only [buildWith, GramTable.isEmpty, List.isEmpty_iff, nonempty, if_false,
    Nat.ne_of_gt positive, unique, nodes, slots, ne_eq, not_true, placed]

/-- Stems that are all different are built into a trie, if they are not refused as too many. -/
theorem buildWith_eq_ok {threshold : Nat} {table : GramTable} (nonempty : table.entries ≠ [])
    (positive : 0 < table.width) (distinct : (table.entries.map (·.gram)).Nodup)
    (fits : ∀ nodes slots,
      (buildWith threshold table).2 ≠ .error (.settings (.trieTooLarge nodes slots))) :
    ∃ trie, (buildWith threshold table).2 = .ok trie := by
  have built := @snd_buildWith threshold table nonempty positive distinct
  split at built
  · exact absurd built (fits _ _)
  · exact ⟨_, built⟩

end RankTrie

end GramCensus
