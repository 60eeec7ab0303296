import GramCensus.Proofs.ByteTree.Positions

/-!
# The layout of a flat tree

The rows of a flat tree are a breadth-first layout of its tree: the ranges of children follow each other
and cover all positions but the first (`Tiles`), so that every node but the root lies in the range of one
node, and tables are numbered as they come. Following the ranges reads all keys back
(`FlatTree.read_eq_toList`). Main statement: `FlatTree.ofTree_laidOut`.
-/

namespace GramCensus

/-! ## Ranges -/

namespace FlatNode

/-- The positions of the children. -/
def range (node : FlatNode) : List Nat :=
  List.range' node.firstChild node.fanOut

theorem mem_range {node : FlatNode} {position : Nat} :
    position ∈ node.range ↔
      node.firstChild ≤ position ∧ position < node.firstChild + node.fanOut :=
  List.mem_range'_1

/-- A row has the byte, the number and as many children as a node. -/
structure Describes (row : FlatNode) (node : ByteTree) : Prop where
  byte_eq : row.byte = node.byte
  value_eq : row.value = node.value
  fanOut_eq : row.fanOut = node.fanOut

end FlatNode

/-- The ranges of nodes follow each other without gaps, from one position up to another. -/
def Tiles : (start : Nat) → List FlatNode → (stop : Nat) → Prop
  | start, [], stop => start = stop
  | start, node :: nodes, stop => node.firstChild = start ∧ Tiles (start + node.fanOut) nodes stop

namespace Tiles

variable {start stop position i j : Nat} {nodes : List FlatNode} {node other : FlatNode}

theorem start_le_stop (tiles : Tiles start nodes stop) : start ≤ stop := by
  induction nodes generalizing start with
  | nil => exact Nat.le_of_eq tiles
  | cons first nodes ih => exact Nat.le_of_add_right_le (ih tiles.2)

/-- Each range lies between the two ends. -/
theorem bounds (tiles : Tiles start nodes stop) (at_i : nodes[i]? = some node) :
    start ≤ node.firstChild ∧ node.firstChild + node.fanOut ≤ stop := by
  induction nodes generalizing start i with
  | nil => cases at_i
  | cons first nodes ih =>
    rcases tiles with ⟨rfl, rest⟩
    cases i with
    | zero =>
      cases at_i
      exact ⟨Nat.le_refl _, rest.start_le_stop⟩
    | succ i => exact (ih rest at_i).imp_left Nat.le_of_add_right_le

/-- Every position lies in some range. -/
theorem exists_mem_range (tiles : Tiles start nodes stop) (behind : start ≤ position)
    (inside : position < stop) :
    ∃ (i : Nat) (node : FlatNode), nodes[i]? = some node ∧ position ∈ node.range := by
  induction nodes generalizing start with
  | nil =>
    obtain rfl : start = stop := tiles
    exact absurd inside (Nat.not_lt_of_le behind)
  | cons first nodes ih =>
    rcases tiles with ⟨rfl, rest⟩
    by_cases own : position < first.firstChild + first.fanOut
    · exact ⟨0, first, rfl, FlatNode.mem_range.2 ⟨behind, own⟩⟩
    · rcases ih rest (Nat.le_of_not_lt own) with ⟨i, node, at_i, member⟩
      exact ⟨i + 1, node, at_i, member⟩

/-- No position lies in two ranges. -/
theorem eq_of_mem_range (tiles : Tiles start nodes stop) (at_i : nodes[i]? = some node)
    (member : position ∈ node.range) (at_j : nodes[j]? = some other)
    (member' : position ∈ other.range) : i = j := by
  induction nodes generalizing start i j with
  | nil => cases at_i
  | cons first nodes ih =>
    rcases tiles with ⟨rfl, rest⟩
    -- A range behind the first one begins where that ends, or later.
    have apart : ∀ {k : Nat} {later : FlatNode}, nodes[k]? = some later → position ∈ later.range →
        position ∉ first.range := by
      intro k later at_k inLater inFirst
      have begins := (rest.bounds at_k).1
      have ends := (FlatNode.mem_range.1 inFirst).2
      exact absurd (Nat.lt_of_lt_of_le ends begins)
        (Nat.not_lt_of_le (FlatNode.mem_range.1 inLater).1)
    cases i with
    | zero =>
      cases at_i
      cases j with
      | zero => rfl
      | succ j => exact absurd member (apart at_j member')
    | succ i =>
      cases j with
      | zero =>
        cases at_j
        exact absurd member' (apart at_i member)
      | succ j => exact congrArg (· + 1) (ih rest at_i at_j)

end Tiles

namespace FlatTree

open ByteTree

variable {wideAbove remaining : Nat} {tree : ByteTree}

/-! ## Rows tile the array -/

theorem length_rows (firstChild tables : Nat) (order : List (Bytes × ByteTree)) :
    (rows firstChild tables order).length = order.length := by
  induction order generalizing firstChild tables with
  | nil => rfl
  | cons spot order ih => rw [rows, List.length_cons, ih, List.length_cons]

theorem tiles_rows (firstChild tables : Nat) (order : List (Bytes × ByteTree)) :
    Tiles firstChild (rows firstChild tables order)
      (firstChild + before fanOut order order.length) := by
  induction order generalizing firstChild tables with
  | nil => exact rfl
  | cons spot order ih =>
    have rest := ih (firstChild + spot.2.fanOut) (tables + spot.2.tableCount)
    rw [Nat.add_assoc, ← before_cons_succ] at rest
    exact ⟨rfl, rest⟩

theorem size_nodes (tree : ByteTree) : (ofTree tree).nodes.size = tree.nodes.length := by
  rw [ofTree_eq, List.size_toArray, length_rows]

theorem toList_nodes (tree : ByteTree) : (ofTree tree).nodes.toList = rows 1 0 tree.nodes := by
  rw [ofTree_eq]

theorem tiles_ofTree (tree : ByteTree) :
    Tiles 1 (ofTree tree).nodes.toList (ofTree tree).nodes.size := by
  have whole := tiles_rows 1 0 tree.nodes
  rwa [← firstChild, firstChild_length, ← size_nodes, ← toList_nodes] at whole

/-- Each row of a flat tree is the row of a node of the tree. -/
theorem getElem?_nodes_eq_some_iff {i : Nat} {node : FlatNode} :
    (ofTree tree).nodes[i]? = some node ↔ ∃ spot, tree.nodes[i]? = some spot ∧
      row spot.2 (tree.firstChild i) (before tableCount tree.nodes i) = node := by
  rw [ofTree_eq, List.getElem?_toArray, getElem?_rows, Option.map_eq_some_iff, Nat.zero_add]
  rfl

theorem exists_parent_range {position : Nat} (inner : 0 < position)
    (inside : position < (ofTree tree).nodes.size) :
    ∃ i node, (ofTree tree).nodes[i]? = some node ∧ i < position ∧ position ∈ node.range ∧
      ∀ j other, (ofTree tree).nodes[j]? = some other → position ∈ other.range → j = i := by
  have tiles := tiles_ofTree tree
  rcases tiles.exists_mem_range inner inside with ⟨i, node, at_i, member⟩
  rw [Array.getElem?_toList] at at_i
  refine ⟨i, node, at_i, ?_, member, fun j other at_j member' => ?_⟩
  · rcases getElem?_nodes_eq_some_iff.1 at_i with ⟨spot, listed, rfl⟩
    have earlier := lt_firstChild (List.getElem?_eq_some_iff.1 listed).1
    exact Nat.lt_of_lt_of_le earlier (FlatNode.mem_range.1 member).1
  · exact tiles.eq_of_mem_range (by rwa [Array.getElem?_toList]) member'
      (by rwa [Array.getElem?_toList]) member

/-! ## Reading the children of a row -/

/-- What is read along a range is what is read along the children, if it is the same at each place. -/
theorem map_range_eq {α : Type} {i : Nat} {spot : Bytes × ByteTree} {tables : Nat}
    {atPosition : Nat → α} {atChild : ByteTree → α}
    (same : ∀ c child, spot.2.children[c]? = some child →
      atPosition (tree.firstChild i + c) = atChild child) :
    (row spot.2 (tree.firstChild i) tables).range.map atPosition =
      spot.2.children.map atChild := by
  refine List.ext_getElem? fun c => ?_
  rw [FlatNode.range, List.getElem?_map, List.getElem?_map, row, fanOut]
  cases place : spot.2.children[c]? with
  | none => simp [List.getElem?_eq_none_iff.1 place]
  | some child =>
    have inside := (List.getElem?_eq_some_iff.1 place).1
    simp [inside, same c child place]

theorem map_byte_range {i : Nat} {spot : Bytes × ByteTree} (at_i : tree.nodes[i]? = some spot)
    (tables : Nat) :
    ((row spot.2 (tree.firstChild i) tables).range.map fun position =>
      ((ofTree tree).nodes.getD position default).byte) = spot.2.children.map byte :=
  map_range_eq fun _ _ place => congrArg FlatNode.byte (getD_nodes (getElem?_nodes_child at_i place))

/-- The keys below the node at a position with their numbers, read along the ranges of children. A
range that does not lead on to positions behind the node is not followed. -/
def read (flat : FlatTree) (i : Nat) : List (Bytes × UInt32) :=
  (flat.nodes.getD i default).range.flatMap fun position =>
    if i < position ∧ position < flat.nodes.size then
      let node := flat.nodes.getD position default
      let below := if node.fanOut = 0 then [([], node.value)] else flat.read position
      below.map fun pair => (node.byte :: pair.1, pair.2)
    else []
termination_by flat.nodes.size - i

/-- What is read at a node is what is read at its children, behind their bytes. -/
theorem read_eq_entriesIn {i : Nat} {spot : Bytes × ByteTree} (at_i : tree.nodes[i]? = some spot)
    {below : ByteTree → List (Bytes × UInt32)}
    (same : ∀ c child, spot.2.children[c]? = some child →
      (if child.fanOut = 0 then [([], child.value)]
        else (ofTree tree).read (tree.firstChild i + c)) = below child) :
    (ofTree tree).read i = entriesIn below spot.2.children := by
  rw [read, getD_nodes at_i, entriesIn, List.flatMap_def, List.flatMap_def]
  congr 1
  refine map_range_eq fun c child place => ?_
  have at_child := getElem?_nodes_child at_i place
  have later : i < tree.firstChild i + c :=
    Nat.lt_add_right c (lt_firstChild (List.getElem?_eq_some_iff.1 at_i).1)
  have inside : tree.firstChild i + c < (ofTree tree).nodes.size := by
    rw [size_nodes]
    exact (List.getElem?_eq_some_iff.1 at_child).1
  rw [if_pos ⟨later, inside⟩, getD_nodes at_child]
  exact congrArg _ (same c child place)

/-- The ranges lead to all keys below a node. -/
theorem read_eq_entries {i : Nat} {spot : Bytes × ByteTree} (at_i : tree.nodes[i]? = some spot)
    (shaped : Shaped wideAbove (remaining + 1) spot.2) :
    (ofTree tree).read i = entries (remaining + 1) spot.2 := by
  induction remaining generalizing i spot with
  | zero =>
    refine read_eq_entriesIn at_i fun c child place => ?_
    have leaf := (shaped.child (List.mem_of_getElem? place)).1
    rw [fanOut, leaf]
    rfl
  | succ remaining ih =>
    refine read_eq_entriesIn at_i fun c child place => ?_
    have shapedChild := shaped.child (List.mem_of_getElem? place)
    have inner : child.fanOut ≠ 0 := fun none => shapedChild.1 (List.length_eq_zero_iff.1 none)
    rw [if_neg inner]
    exact ih (getElem?_nodes_child at_i place) shapedChild

theorem read_eq_toList (shaped : Shaped wideAbove remaining tree) :
    (ofTree tree).read 0 = tree.toList := by
  have root := getElem?_nodes_zero tree
  cases remaining with
  | zero =>
    -- The root of an empty tree has no range to follow, and is no key itself.
    have nothing : (ofTree tree).read 0 = entriesIn (fun _ => []) tree.children :=
      read_eq_entriesIn root (by simp [shaped.1])
    simp [nothing, entriesIn, toList, shaped.1, walk]
  | succ remaining => rw [read_eq_entries root shaped, shaped.toList_eq]

/-! ## Numbers of tables -/

/-- The number of nodes with a table. -/
def tableNodes (flat : FlatTree) : Nat :=
  flat.nodes.toList.countP fun node => node.table ≠ 0

/-- Tables are numbered one after the other, as their nodes stand. -/
theorem filter_table_rows (firstChild tables : Nat) (order : List (Bytes × ByteTree)) :
    ((rows firstChild tables order).map (·.table)).filter (· ≠ 0) =
      List.range' (tables + 1)
        ((rows firstChild tables order).countP fun node => node.table ≠ 0) := by
  induction order generalizing firstChild tables with
  | nil => rfl
  | cons spot order ih =>
    rw [rows, List.map_cons, List.countP_cons]
    -- A table takes the next number; a node without one leaves it to those behind.
    by_cases wide : spot.2.wide
    · have held : (row spot.2 firstChild tables).table ≠ 0 := by simp [row_table_of_wide wide]
      rw [List.filter_cons_of_pos (by simpa using held), ih, if_pos (by simpa using held),
        List.range'_succ, row_table_of_wide wide, tableCount, if_pos wide]
    · have blank := row_table_of_narrow wide firstChild tables
      rw [List.filter_cons_of_neg (by simp [blank]), ih, if_neg (by simp [blank]), tableCount,
        if_neg wide]
      rfl

/-- There are 256 entries for each node with a table. -/
theorem length_tableRows (firstChild tables : Nat) (order : List (Bytes × ByteTree)) :
    (tableRows firstChild order).length =
      ((rows firstChild tables order).countP fun node => node.table ≠ 0) * 256 := by
  induction order generalizing firstChild tables with
  | nil => simp [tableRows, rows]
  | cons spot order ih =>
    have own : (if decide ((row spot.2 firstChild tables).table ≠ 0) = true then 1 else 0) =
        spot.2.tableCount := by
      by_cases wide : spot.2.wide <;> simp [row, tableCount, wide]
    rw [tableRows, rows, List.length_append, length_ownTable, List.countP_cons, own,
      ih _ (tables + spot.2.tableCount), Nat.add_mul, Nat.add_comm]

/-- No number of a table is larger than the number of nodes. -/
theorem table_le {node : FlatNode} (member : node ∈ (ofTree tree).nodes.toList) :
    node.table ≤ (ofTree tree).nodes.size := by
  by_cases none : node.table = 0
  · exact none ▸ Nat.zero_le _
  · have listed : node.table ∈ ((ofTree tree).nodes.toList.map (·.table)).filter (· ≠ 0) :=
      List.mem_filter.2 ⟨List.mem_map_of_mem member, decide_eq_true none⟩
    rw [toList_nodes, filter_table_rows, List.mem_range'_1, ← toList_nodes] at listed
    have counted := (ofTree tree).nodes.toList.countP_le_length (p := fun node => node.table ≠ 0)
    rw [Array.length_toList] at counted
    omega

theorem footprint_eq (tree : ByteTree) :
    (ofTree tree).footprint = 16 * (ofTree tree).nodes.size + 1024 * (ofTree tree).tableNodes := by
  have tables : (ofTree tree).tables.size = (ofTree tree).tableNodes * 256 := by
    rw [tableNodes, toList_nodes, ofTree_eq, List.size_toArray]
    exact length_tableRows 1 0 tree.nodes
  calc (ofTree tree).footprint
      = (ofTree tree).nodes.size * 16 + (ofTree tree).tables.size * 4 := rfl
    _ = 16 * (ofTree tree).nodes.size + 1024 * (ofTree tree).tableNodes := by omega

/-! ## Bounds -/

/-- An entry of a table is zero or one more than the position of a child. -/
theorem le_of_mem_ownTable {node : ByteTree} (ascending : (node.children.map byte).Pairwise (· < ·))
    {firstChild entry : Nat} (member : entry ∈ ownTable node firstChild) :
    entry ≤ firstChild + node.fanOut := by
  rw [ownTable] at member
  split at member
  case isFalse => cases member
  case isTrue =>
    rcases List.getElem?_of_mem member with ⟨i, place⟩
    have small : i < 256 := by
      have inside := (List.getElem?_eq_some_iff.1 place).1
      rwa [Array.length_toList, childTable, size_byteTable] at inside
    have held := getElem?_byteTable (ascending.imp UInt8.ne_of_lt) 0 (firstChild + · + 1)
      (UInt8.ofNat i)
    rw [UInt8.toNat_ofNat_of_lt' small, ← Array.getElem?_toList] at held
    obtain rfl := Option.some.inj (place.symm.trans held)
    split
    case isTrue listed =>
      have among := List.idxOf_lt_length_of_mem listed
      rw [List.length_map] at among
      exact Nat.add_le_add_left among firstChild
    case isFalse => exact Nat.zero_le _

theorem le_of_mem_tableRows {order : List (Bytes × ByteTree)}
    (ascending : ∀ spot ∈ order, (spot.2.children.map byte).Pairwise (· < ·))
    {firstChild entry : Nat} (member : entry ∈ tableRows firstChild order) :
    entry ≤ firstChild + before fanOut order order.length := by
  induction order generalizing firstChild with
  | nil => cases member
  | cons spot order ih =>
    rcases List.forall_mem_cons.1 ascending with ⟨first, others⟩
    rw [List.length_cons, before_cons_succ, ← Nat.add_assoc]
    rcases List.mem_append.1 member with own | later
    · exact Nat.le_add_right_of_le (le_of_mem_ownTable first own)
    · exact ih others later

/-! ## The layout -/

/-- A flat tree is a breadth-first layout of a tree over some keys. -/
structure LaidOut (wideAbove : Nat) (keys : List Bytes) (tree : ByteTree) (flat : FlatTree) : Prop where
  root : ∃ row, flat.nodes[0]? = some row ∧ row.Describes tree
  /-- There is one row for each beginning of a key. They stand in the order of the paths, and each path
  leads to its row. -/
  order : ∃ paths : List Bytes, paths.Pairwise Precedes ∧ paths.length = flat.nodes.size ∧
    (∀ path, path ∈ paths ↔ path = [] ∨ path ∈ nodePaths keys) ∧
    ∀ (i : Nat) path, paths[i]? = some path → flat.locate 0 0 path = .ok i ∧
      ∃ node row, tree.node? path = some node ∧ flat.nodes[i]? = some row ∧ row.Describes node
  size_eq : flat.nodes.size = 1 + ((nodePaths keys).erase []).card
  /-- The ranges follow each other from the second position to the last. -/
  tiles : Tiles 1 flat.nodes.toList flat.nodes.size
  parent : ∀ position, 0 < position → position < flat.nodes.size →
    ∃ (i : Nat) (node : FlatNode), flat.nodes[i]? = some node ∧ i < position ∧ position ∈ node.range ∧
      ∀ (j : Nat) (other : FlatNode), flat.nodes[j]? = some other → position ∈ other.range → j = i
  ascending : ∀ node ∈ flat.nodes.toList,
    (node.range.map fun position => (flat.nodes.getD position default).byte).Pairwise (· < ·)
  table_iff : ∀ node ∈ flat.nodes.toList, node.table ≠ 0 ↔ wideAbove < node.fanOut
  numbered : (flat.nodes.toList.map (·.table)).filter (· ≠ 0) = List.range' 1 flat.tableNodes
  read_eq : flat.read 0 = tree.toList
  footprint_eq : flat.footprint = 16 * flat.nodes.size + 1024 * flat.tableNodes
  /-- Positions and numbers of tables are at most the number of nodes, so they are small if that is. -/
  fits : (∀ node ∈ flat.nodes.toList, node.fanOut ≤ 256 ∧ node.firstChild ≤ flat.nodes.size ∧
      node.table ≤ flat.nodes.size) ∧
    ∀ entry ∈ flat.tables.toList, entry ≤ flat.nodes.size

/-- What holds of the rows of all nodes holds of all rows. -/
theorem forall_mem_nodes {P : FlatNode → Prop}
    (each : ∀ i spot, tree.nodes[i]? = some spot →
      P (row spot.2 (tree.firstChild i) (before tableCount tree.nodes i))) :
    ∀ node ∈ (ofTree tree).nodes.toList, P node := by
  intro node member
  rcases List.getElem?_of_mem member with ⟨i, at_i⟩
  rw [Array.getElem?_toList] at at_i
  rcases getElem?_nodes_eq_some_iff.1 at_i with ⟨spot, listed, rfl⟩
  exact each i spot listed

theorem describes_row (node : ByteTree) (firstChild tables : Nat) :
    (row node firstChild tables).Describes node :=
  ⟨rfl, rfl, rfl⟩

theorem laidOut_of_shaped (shaped : Shaped wideAbove remaining tree) {keys : List Bytes}
    (reached : ∀ path, (tree.node? path).isSome ↔ path = [] ∨ path ∈ nodePaths keys) :
    LaidOut wideAbove keys tree (ofTree tree) where
  root := ⟨_, getElem?_nodes_eq_some_iff.2 ⟨_, getElem?_nodes_zero tree, rfl⟩, describes_row ..⟩
  order := by
    refine ⟨tree.paths, shaped.pairwise_paths, ?_, fun path => shaped.mem_paths_iff.trans (reached path),
      fun i path place => ?_⟩
    · rw [paths, List.length_map, size_nodes]
    · rw [paths, List.getElem?_map, Option.map_eq_some_iff] at place
      rcases place with ⟨spot, at_i, rfl⟩
      refine ⟨locate_path shaped at_i, spot.2, _, ?_,
        getElem?_nodes_eq_some_iff.2 ⟨spot, at_i, rfl⟩, describes_row ..⟩
      exact (shaped.of_mem_nodes (List.mem_of_getElem? at_i)).1
  size_eq := (size_nodes tree).trans (shaped.length_nodes reached)
  tiles := tiles_ofTree tree
  parent _ := exists_parent_range
  ascending := forall_mem_nodes fun i spot at_i => by
    rcases (shaped.of_mem_nodes (List.mem_of_getElem? at_i)).2 with ⟨rest, shapedSpot⟩
    rw [map_byte_range at_i]
    exact shapedSpot.ascending
  table_iff := forall_mem_nodes fun i spot at_i => by
    rcases (shaped.of_mem_nodes (List.mem_of_getElem? at_i)).2 with ⟨rest, shapedSpot⟩
    have wide_iff := shapedSpot.wide_iff
    simpa [row] using wide_iff
  numbered := by
    rw [tableNodes, toList_nodes]
    exact filter_table_rows 1 0 tree.nodes
  read_eq := read_eq_toList shaped
  footprint_eq := footprint_eq tree
  fits := by
    constructor
    · -- What a row holds is bounded by the tiling and by the numbering of the tables.
      refine forall_mem_nodes fun i spot at_i => ?_
      have held := getElem?_nodes_eq_some_iff.2 ⟨spot, at_i, rfl⟩
      rcases (shaped.of_mem_nodes (List.mem_of_getElem? at_i)).2 with ⟨rest, shapedSpot⟩
      refine ⟨shapedSpot.fanOut_le, ?_, ?_⟩
      · rw [← Array.getElem?_toList] at held
        exact Nat.le_of_add_right_le ((tiles_ofTree tree).bounds held).2
      · exact table_le (List.mem_of_getElem? (by rwa [← Array.getElem?_toList] at held))
    · -- What an entry holds is bounded by where the children of the last node would stand.
      have whole := firstChild_length tree
      rw [size_nodes, ← whole, ofTree_eq]
      intro entry member
      refine le_of_mem_tableRows (fun spot listed => ?_) member
      rcases (shaped.of_mem_nodes listed).2 with ⟨rest, shapedSpot⟩
      exact shapedSpot.ascending

/-- A tree that was built has a shape, whatever calls follow, and its paths stay the beginnings of the
keys. -/
theorem shaped_run_of_build {plan : TreePlan} {grams : Bytes} {length : Nat}
    (built : build plan grams length = .ok tree) (calls : List TreeCall) :
    (∃ remaining, Shaped plan.wideAbove remaining (tree.run calls)) ∧
      ∀ path, ((tree.run calls).node? path).isSome ↔
        path = [] ∨ path ∈ nodePaths (keysOf plan grams length) := by
  by_cases none : grams = []
  · -- Without n-grams the root is a leaf, and its path is the only one.
    subst none
    have leaf : Shaped plan.wideAbove 0 tree := by
      rw [build_nil built]
      exact ⟨rfl, rfl⟩
    have shaped := leaf.run_leaf calls
    refine ⟨⟨0, shaped⟩, fun path => ?_⟩
    rw [shaped.node?_isSome_iff]
    simp [mem_nodePaths, entries, keysOf, cutKeys]
  · rcases shaped_of_build built none with ⟨remaining, shaped, -⟩
    have maps := run_maps built none calls
    refine ⟨⟨_, (shaped.run calls).1⟩, fun path => ?_⟩
    rw [mem_nodePaths, ← maps.node?_iff, or_iff_right_of_imp]
    rintro rfl
    rfl

/-- Whatever calls follow each other on a tree that was built, the empty one too, its flat form is a
breadth-first layout of the tree over the keys. The first row is the root's, and there is one more for
each beginning of a key, in the order of their lengths and bytes. The ranges of children follow each
other, so that each position behind the first lies in the range of one row, which stands before it; in a
range the bytes ascend. A row has a table if it has more children than the plan allows without one, and
tables are numbered from one on in the order of the rows. Following the ranges reads what the tree lists. -/
theorem ofTree_laidOut {plan : TreePlan} {grams : Bytes} {length : Nat}
    (built : build plan grams length = .ok tree) (calls : List TreeCall) :
    LaidOut plan.wideAbove (keysOf plan grams length) (tree.run calls) (ofTree (tree.run calls)) := by
  rcases shaped_run_of_build built calls with ⟨⟨remaining, shaped⟩, reached⟩
  exact laidOut_of_shaped shaped reached

/-- Three n-grams, two of which end in the same byte: seven rows, of which only the root's has a
table. -/
theorem ofTree_laidOut_of_seven_rows :
    ∃ tree, build ⟨0, 9, 1⟩ [1, 4, 2, 4, 3, 6] 2 = .ok tree ∧ ∀ calls : List TreeCall,
      LaidOut 1 [[1, 4], [2, 4], [3, 6]] (tree.run calls) (ofTree (tree.run calls)) ∧
        (ofTree (tree.run calls)).nodes.size = 7 := by
  have succeeds : (build ⟨0, 9, 1⟩ [1, 4, 2, 4, 3, 6] 2).isOk := by decide +kernel
  have keys : keysOf ⟨0, 9, 1⟩ [1, 4, 2, 4, 3, 6] 2 = [[1, 4], [2, 4], [3, 6]] := by decide
  rcases exists_of_isOk succeeds with ⟨tree, built⟩
  refine ⟨tree, built, fun calls => ?_⟩
  have laid := ofTree_laidOut built calls
  rw [keys] at laid
  exact ⟨laid, laid.size_eq.trans (by decide)⟩

end FlatTree

end GramCensus
