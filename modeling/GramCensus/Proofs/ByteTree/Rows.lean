import GramCensus.Proofs.ByteTable
import GramCensus.Proofs.ByteTree.BreadthFirst

/-!
# The rows of a flat tree

The flat form of a tree has a row for each of its nodes in breadth-first order, and beside them the
tables of the nodes that have one, in the same order (`FlatTree.ofTree_eq`). Where a node has its
children and its table is counted from the nodes before it (`FlatTree.getElem?_rows`,
`FlatTree.getElem?_tableRows`).
-/

namespace GramCensus

namespace FlatTree

open ByteTree

/-- The row of a node whose children stand from `firstChild` on, and which has `tables` tables before
it. -/
def row (tree : ByteTree) (firstChild tables : Nat) : FlatNode where
  byte := tree.byte
  fanOut := tree.fanOut
  value := tree.value
  firstChild
  table := if tree.wide then tables + 1 else 0

theorem row_table_of_wide {tree : ByteTree} (wide : tree.wide) (firstChild tables : Nat) :
    (row tree firstChild tables).table = tables + 1 :=
  if_pos wide

theorem row_table_of_narrow {tree : ByteTree} (narrow : ¬ tree.wide) (firstChild tables : Nat) :
    (row tree firstChild tables).table = 0 :=
  if_neg narrow

/-- The rows of nodes that follow each other; the children of the first one stand from `firstChild`
on. -/
def rows : (firstChild tables : Nat) → List (Bytes × ByteTree) → List FlatNode
  | _, _, [] => []
  | firstChild, tables, (_, tree) :: order =>
    row tree firstChild tables :: rows (firstChild + tree.fanOut) (tables + tree.tableCount) order

/-- The entries of the table of a node, if it has one. -/
def ownTable (tree : ByteTree) (firstChild : Nat) : List Nat :=
  if tree.wide then (childTable firstChild tree.children).toList else []

/-- The tables of nodes that follow each other. -/
def tableRows : (firstChild : Nat) → List (Bytes × ByteTree) → List Nat
  | _, [] => []
  | firstChild, (_, tree) :: order =>
    ownTable tree firstChild ++ tableRows (firstChild + tree.fanOut) order

theorem length_ownTable (tree : ByteTree) (firstChild : Nat) :
    (ownTable tree firstChild).length = tree.tableCount * 256 := by
  rw [ownTable, tableCount]
  split
  · rw [Array.length_toList, childTable, size_byteTable]
  · rfl

/-! ## Placing nodes -/

/-- Placing the children of a node completes its row, and the children wait behind all others. -/
theorem placeChildren_eq (placed waiting : List FlatNode) {tables : Array Nat} {count : Nat}
    (size_eq : tables.size = count * 256) (tree : ByteTree) :
    placeChildren ⟨(placed ++ unplaced tree :: waiting).toArray, tables⟩ tree placed.length =
      ⟨(placed ++ row tree (placed.length + (waiting.length + 1)) count ::
          (waiting ++ tree.children.map unplaced)).toArray,
        tables ++ (ownTable tree (placed.length + (waiting.length + 1))).toArray⟩ := by
  have number : tables.size / 256 = count := by
    rw [size_eq]
    exact Nat.mul_div_cancel count (by decide)
  have length_eq : (placed ++ unplaced tree :: waiting).toArray.size =
      placed.length + (waiting.length + 1) := by
    rw [List.size_toArray, List.length_append, List.length_cons]
  rw [placeChildren, number, length_eq]
  congr 1
  · rw [List.modify_toArray, List.modify_eq_take_cons_drop (by simp), List.take_left,
      List.getElem_append_right (Nat.le_refl _)]
    simp [unplaced, row, fanOut]
  · rw [ownTable]
    split
    · rw [Array.toArray_toList]
    · simp

/-- Placing a queue completes the rows of its nodes, and makes the rows of all nodes below them. -/
theorem place_eq (queue : List (Bytes × ByteTree)) (placed : List FlatNode) {tables : Array Nat}
    {count : Nat} (size_eq : tables.size = count * 256) :
    place ((queue.map (·.2)).zipIdx placed.length)
        ⟨(placed ++ queue.map fun spot => unplaced spot.2).toArray, tables⟩ =
      ⟨(placed ++ rows (placed.length + queue.length) count (breadthFirst queue)).toArray,
        tables ++ (tableRows (placed.length + queue.length) (breadthFirst queue)).toArray⟩ := by
  induction queue using breadthFirst.induct generalizing placed tables count with
  | case1 => simp [place, breadthFirst, rows, tableRows]
  | case2 first queue ih =>
    rcases first with ⟨path, tree⟩
    have step := placeChildren_eq placed (queue.map fun spot => unplaced spot.2) size_eq tree
    rw [List.length_map] at step
    -- The queue afterwards, and where the next children will stand.
    have waiting : (queue.map (·.2)).zipIdx (placed.length + 1) ++
        tree.children.zipIdx (placed.length + (queue.length + 1)) =
          ((queue ++ spotsBelow (path, tree)).map (·.2)).zipIdx (placed.length + 1) := by
      rw [List.map_append, map_snd_spotsBelow, List.zipIdx_append, List.length_map, Nat.add_assoc,
        Nat.add_comm 1]
    have unplaced_eq : (queue.map fun spot => unplaced spot.2) ++ tree.children.map unplaced =
        (queue ++ spotsBelow (path, tree)).map fun spot => unplaced spot.2 := by
      rw [List.map_append, spotsBelow, List.map_map]
      rfl
    have next : placed.length + 1 + (queue ++ spotsBelow (path, tree)).length =
        placed.length + (queue.length + 1) + tree.fanOut := by
      rw [List.length_append, length_spotsBelow]
      dsimp only
      omega
    have grown : (tables ++ (ownTable tree (placed.length + (queue.length + 1))).toArray).size =
        (count + tree.tableCount) * 256 := by
      simp [length_ownTable, size_eq, Nat.add_mul]
    have rest := ih (placed ++ [row tree (placed.length + (queue.length + 1)) count]) grown
    rw [List.length_append, List.length_singleton, next, ← waiting, ← unplaced_eq] at rest
    rw [List.map_cons, List.map_cons, List.zipIdx_cons, place, step, breadthFirst, rows, tableRows,
      List.length_cons]
    simpa using rest

/-- The flat form of a tree has the rows of its nodes, and their tables. -/
theorem ofTree_eq (tree : ByteTree) :
    ofTree tree = ⟨(rows 1 0 tree.nodes).toArray, (tableRows 1 tree.nodes).toArray⟩ := by
  have noTables : (#[] : Array Nat).size = 0 * 256 := rfl
  have whole := place_eq [([], tree)] [] noTables
  simpa [ofTree, ByteTree.nodes] using whole

/-! ## Reading rows -/

theorem getElem?_rows (firstChild tables : Nat) (order : List (Bytes × ByteTree)) (i : Nat) :
    (rows firstChild tables order)[i]? = order[i]?.map fun spot =>
      row spot.2 (firstChild + before fanOut order i) (tables + before tableCount order i) := by
  induction order generalizing firstChild tables i with
  | nil => rfl
  | cons spot order ih =>
    cases i with
    | zero => rfl
    | succ i =>
      rw [rows, List.getElem?_cons_succ, List.getElem?_cons_succ, ih, before_cons_succ,
        before_cons_succ, Nat.add_assoc, Nat.add_assoc]

theorem getElem?_tableRows {order : List (Bytes × ByteTree)} {i : Nat} {spot : Bytes × ByteTree}
    (at_i : order[i]? = some spot) (wide : spot.2.wide) (firstChild : Nat) {entry : Nat}
    (inside : entry < 256) :
    (tableRows firstChild order)[before tableCount order i * 256 + entry]? =
      (childTable (firstChild + before fanOut order i) spot.2.children)[entry]? := by
  induction order generalizing firstChild i with
  | nil => cases at_i
  | cons first order ih =>
    rcases first with ⟨path, tree⟩
    have length_eq := length_ownTable tree firstChild
    cases i with
    | zero =>
      obtain rfl : (path, tree) = spot := Option.some.inj at_i
      rw [tableCount, if_pos wide] at length_eq
      rw [tableRows, before_zero, before_zero, Nat.zero_mul, Nat.zero_add, Nat.add_zero,
        List.getElem?_append_left (by omega), ownTable, if_pos wide, Array.getElem?_toList]
    | succ i =>
      rw [List.getElem?_cons_succ] at at_i
      rw [tableRows, before_cons_succ, before_cons_succ, Nat.add_mul, Nat.add_assoc, ← length_eq,
        List.getElem?_append_right (Nat.le_add_right _ _), Nat.add_sub_cancel_left, ih at_i,
        Nat.add_assoc]

end FlatTree

end GramCensus
