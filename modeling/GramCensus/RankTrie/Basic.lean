import GramCensus.RankTrie.Layout

/-!
# Rank tries

A rank trie gives every stem of a set, all of one length, a dense number. Numbers follow rank: at
every depth the branches are ordered by descending total count, equal ones by ascending byte, and
stems are numbered depth-first in that order. So number zero is the stem reached by taking the
heaviest branch again and again.
-/

namespace GramCensus

/-- A trie over stems of one length in flat arrays. -/
structure RankTrie where
  layout : Layout
  stemLength : Nat
  stemCount : Nat
  threshold : Nat
  deriving DecidableEq, Repr

namespace RankTrie

/-! ## Looking stems up -/

/-- Scans a segment in the order of its bytes, giving up at the first byte that is too large. -/
def scanSegment (layout : Layout) (byte : UInt8) : List Nat → Option Nat
  | [] => none
  | child :: rest =>
    let edge := layout.edges.getD child 0
    if edge = byte then some child
    else if byte < edge then none
    else scanSegment layout byte rest

/-- The segment of a node as a list of child slots. -/
def segmentOf (trie : RankTrie) (node : Nat) : List Nat :=
  let fanOut := trie.layout.fanOuts.getD node 0
  let start := trie.layout.links.getD node 0
  (trie.layout.slots.extract start (start + segmentLength trie.threshold fanOut)).toList

/-- The child of a node for a byte. -/
def child? (trie : RankTrie) (node : Nat) (byte : UInt8) : Option Nat :=
  let fanOut := trie.layout.fanOuts.getD node 0
  let start := trie.layout.links.getD node 0
  if trie.threshold ≤ fanOut then
    match trie.layout.slots.getD (start + byte.toNat) 0 with
    | 0 => none
    | child => some child
  else scanSegment trie.layout byte (trie.segmentOf node)

/-- The node reached from a node along some bytes. -/
def descend? (trie : RankTrie) : Nat → Bytes → Option Nat
  | node, [] => some node
  | node, byte :: rest => (trie.child? node byte).bind fun child => trie.descend? child rest

/-- The number of a stem. Keys of another length have none. -/
def search (trie : RankTrie) (key : Bytes) : Option Nat :=
  if key.length = trie.stemLength then
    (trie.descend? 0 key).map fun leaf => trie.layout.links.getD leaf 0
  else none

/-! ## Listing stems -/

/-- The children of a node in rank order, which is the order of their numbers. -/
def childrenInRank (trie : RankTrie) (node : Nat) : List Nat :=
  stableSort (· ≤ ·) ((trie.segmentOf node).filter (· ≠ 0))

/-- The number of nodes at and below a node that is `remaining` bytes above the leaves. -/
def visits (trie : RankTrie) : (remaining node : Nat) → Nat
  | 0, _ => 1
  | remaining + 1, node => 1 + sumOf ((trie.childrenInRank node).map (trie.visits remaining))

/-- Walks the trie depth-first, and lists the stems with their numbers. The stack holds the nodes that
are still to be visited with their depths, the next one first. The path holds the bytes on the way to
the node visited last, and is cut back to where the next one branches off; the root has no byte. -/
def walk (trie : RankTrie) : (stack : List (Nat × Nat)) → (path : Bytes) → List (Nat × Bytes)
  | [], _ => []
  | (node, depth) :: stack, path =>
    let here :=
      if depth = 0 then path else path.take (depth - 1) ++ [trie.layout.edges.getD node 0]
    if trie.stemLength ≤ depth then (trie.layout.links.getD node 0, here) :: trie.walk stack here
    else trie.walk ((trie.childrenInRank node).map (·, depth + 1) ++ stack) here
termination_by stack => sumOf (stack.map fun (node, depth) =>
  trie.visits (trie.stemLength - depth) node)
decreasing_by
  · have positive : ∀ remaining, 0 < trie.visits remaining node := by
      intro remaining
      cases remaining <;> simp only [visits] <;> omega
    simpa using positive _
  · rename_i inner
    have deeper : trie.stemLength - depth = (trie.stemLength - (depth + 1)) + 1 := by omega
    simp [deeper, visits, Function.comp_def]

/-- All stems with their numbers, depth-first in rank order. -/
def stems (trie : RankTrie) : List (Nat × Bytes) :=
  trie.walk [(0, 0)] []

/-- The stems below a node that is `remaining` bytes above the leaves, each behind the bytes on the
way to the node. -/
def stemsBelow (trie : RankTrie) : (remaining : Nat) → Bytes → Nat → List (Nat × Bytes)
  | 0, path, node => [(trie.layout.links.getD node 0, path)]
  | remaining + 1, path, node =>
    (trie.childrenInRank node).flatMap fun child =>
      trie.stemsBelow remaining (path ++ [trie.layout.edges.getD child 0]) child

/-- Siblings on top of the stack are visited with all that is below them before the rest of the stack,
and the path to them is still there behind that. -/
theorem walk_siblings (trie : RankTrie) {remaining depth : Nat} {path : Bytes}
    (length_eq : path.length = depth) (depth_eq : trie.stemLength = depth + 1 + remaining)
    (siblings : List Nat) (stack : List (Nat × Nat)) (before : Bytes)
    (starts : before.take depth = path) :
    ∃ behind, behind.take depth = path ∧
      trie.walk (siblings.map (·, depth + 1) ++ stack) before =
        (siblings.flatMap fun child =>
          trie.stemsBelow remaining (path ++ [trie.layout.edges.getD child 0]) child) ++
        trie.walk stack behind := by
  induction remaining generalizing depth path siblings stack before with
  | zero =>
    induction siblings generalizing before with
    | nil => exact ⟨before, starts, rfl⟩
    | cons child siblings ih =>
      have again : (path ++ [trie.layout.edges.getD child 0]).take depth = path := by
        rw [← length_eq, List.take_left]
      rcases ih _ again with ⟨behind, starts', rest⟩
      refine ⟨behind, starts', ?_⟩
      rw [List.map_cons, List.cons_append, walk]
      simp only [Nat.succ_ne_zero, if_false, Nat.add_sub_cancel, starts, depth_eq, Nat.add_zero,
        Nat.le_refl, if_true]
      rw [rest, List.flatMap_cons, stemsBelow]
      rfl
  | succ remaining ihBelow =>
    induction siblings generalizing before with
    | nil => exact ⟨before, starts, rfl⟩
    | cons child siblings ih =>
      -- First the child's own children are visited, and then its siblings, from the path left behind.
      have here : (path ++ [trie.layout.edges.getD child 0]).length = depth + 1 := by
        rw [List.length_append, length_eq, List.length_singleton]
      rcases ihBelow here (by omega) (trie.childrenInRank child)
        (siblings.map (·, depth + 1) ++ stack) _ (List.take_of_length_le (Nat.le_of_eq here)) with
        ⟨between, startsBetween, below⟩
      have again : between.take depth = path := by
        have cut := congrArg (List.take depth) startsBetween
        rwa [List.take_take, Nat.min_eq_left (Nat.le_succ depth), ← length_eq, List.take_left,
          length_eq] at cut
      rcases ih between again with ⟨behind, starts', rest⟩
      refine ⟨behind, starts', ?_⟩
      have inner : ¬ trie.stemLength ≤ depth + 1 := by omega
      rw [List.map_cons, List.cons_append, walk]
      simp only [Nat.succ_ne_zero, if_false, Nat.add_sub_cancel, starts, inner]
      rw [below, rest, List.flatMap_cons, List.append_assoc, stemsBelow]

/-- The walk lists what is below the root. -/
theorem stems_eq_stemsBelow (trie : RankTrie) : trie.stems = trie.stemsBelow trie.stemLength [] 0 := by
  rw [stems, walk]
  cases length_eq : trie.stemLength with
  | zero => simp [walk, stemsBelow]
  | succ remaining =>
    have depth_eq : trie.stemLength = 0 + 1 + remaining := by omega
    rcases @walk_siblings trie remaining 0 [] rfl depth_eq (trie.childrenInRank 0) [] [] rfl with
      ⟨behind, -, below⟩
    refine below.trans ?_
    rw [walk, List.append_nil, stemsBelow]

theorem length_of_mem_stemsBelow {trie : RankTrie} {remaining node : Nat} {path : Bytes}
    {stem : Nat × Bytes} (member : stem ∈ trie.stemsBelow remaining path node) :
    stem.2.length = path.length + remaining := by
  induction remaining generalizing path node with
  | zero => rw [stemsBelow, List.mem_singleton] at member; subst member; simp
  | succ remaining ih =>
    obtain ⟨child, -, below⟩ := List.mem_flatMap.1 member
    rw [ih below, List.length_append, List.length_singleton]
    omega

/-- Every listed stem has the length of the trie's stems. -/
theorem length_of_mem_stems {trie : RankTrie} {stem : Nat × Bytes} (member : stem ∈ trie.stems) :
    stem.2.length = trie.stemLength := by
  rw [stems_eq_stemsBelow] at member
  simpa using length_of_mem_stemsBelow member

/-! ## Sizes -/

/-- The number of nodes, the root included. -/
def nodeCount (trie : RankTrie) : Nat :=
  trie.layout.edges.size

/-- The number of child slots. -/
def slotCount (trie : RankTrie) : Nat :=
  trie.layout.slots.size

/-- The bytes that the arrays take: one, two and four per node, and four per child slot. -/
def footprint (trie : RankTrie) : Nat :=
  trie.nodeCount * 7 + trie.slotCount * 4

/-- The sizes of a trie in one line. -/
def describe (trie : RankTrie) : String :=
  "PackedTrie \x7b prefix_len: " ++ toString trie.stemLength ++ ", prefixes: "
    ++ toString trie.stemCount ++ ", nodes: " ++ toString trie.nodeCount ++ ", slots: "
    ++ toString trie.slotCount ++ " \x7d"

/-! ## Building -/

/-- The fan-out from which on a node gets a table, unless another one is asked for. -/
def usualThreshold : Nat := 2

/-- The largest number of nodes, and of child slots. -/
def largestArray : Nat := (1 <<< 32) - 1

/-- The table with its entries in another order. -/
private def withEntries (table : GramTable) (entries : List Entry)
    (same : ∀ e ∈ entries, e ∈ table.entries) : GramTable where
  width := table.width
  entries
  uniform := fun e member => table.uniform e (same e member)

/-- Brings a table into rank order and builds the trie over its n-grams, so that the n-gram at
position `i` gets the number `i`. Where a stem occurs twice there is no trie, and the table is left
as far as it was arranged. -/
def buildWith (threshold : Nat) (table : GramTable) : GramTable × Except Failure RankTrie :=
  if table.isEmpty then (table, .error .noStems)
  else if table.width = 0 then (table, .error (.settings .emptyStems))
  else
    let arranged := arrange threshold table.width 0 table.entries
    let ordered := withEntries table arranged.entries fun _ => mem_of_mem_arrange
    let nodes := arranged.nodes + 1
    let result := match arranged.repeated with
      | some stem => .error (.duplicateStem stem)
      | none =>
        if largestArray < nodes ∨ largestArray < arranged.slots then
          .error (.settings (.trieTooLarge nodes arranged.slots))
        else
          let layout := Layout.ofStems threshold table.width (arranged.entries.map (·.gram))
          if layout.edges.size ≠ nodes then
            .error (.trieLayout .nodes nodes layout.edges.size)
          else if layout.slots.size ≠ arranged.slots then
            .error (.trieLayout .childSlots arranged.slots layout.slots.size)
          else
            .ok { layout, stemLength := table.width, stemCount := table.size, threshold }
    (ordered, result)

/-- Builds with the usual threshold. -/
def build (table : GramTable) : GramTable × Except Failure RankTrie :=
  buildWith usualThreshold table

end RankTrie

end GramCensus
