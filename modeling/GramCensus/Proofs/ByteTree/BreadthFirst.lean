import GramCensus.ByteTree.Flat
import GramCensus.Proofs.ByteTree.Changes
import GramCensus.Sums

/-!
# Breadth-first order

The nodes of a tree in breadth-first order, each beside the path to it (`ByteTree.breadthFirst`). The
children of the nodes stand in one run behind the queue, in the order of their parents
(`ByteTree.getElem?_breadthFirst_below`), and every node behind the queue is a child of one before
(`ByteTree.exists_parent`).
-/

namespace GramCensus

namespace ByteTree

/-- The children of a node, each beside the path to it. -/
def spotsBelow (spot : Bytes × ByteTree) : List (Bytes × ByteTree) :=
  spot.2.children.map fun child => (spot.1 ++ [child.byte], child)

theorem map_snd_spotsBelow (spot : Bytes × ByteTree) :
    (spotsBelow spot).map (·.2) = spot.2.children := by
  rw [spotsBelow, List.map_map]
  exact List.map_id _

/-- The nodes of a queue and all nodes below them. -/
def breadthFirst : (queue : List (Bytes × ByteTree)) → List (Bytes × ByteTree)
  | [] => []
  | spot :: queue => spot :: breadthFirst (queue ++ spotsBelow spot)
termination_by queue => nodeCountIn (queue.map (·.2))
decreasing_by
  rcases spot with ⟨path, byte, value, table, children⟩
  rw [List.map_append, nodeCountIn_append, map_snd_spotsBelow, List.map_cons, nodeCountIn, nodeCount,
    ByteTree.children]
  omega

/-- The sum of a count over the nodes before a position. -/
def before (count : ByteTree → Nat) (order : List (Bytes × ByteTree)) (i : Nat) : Nat :=
  sumOf ((order.take i).map fun spot => count spot.2)

@[simp] theorem before_zero (count : ByteTree → Nat) (order : List (Bytes × ByteTree)) :
    before count order 0 = 0 :=
  rfl

@[simp] theorem before_cons_succ (count : ByteTree → Nat) (spot : Bytes × ByteTree)
    (order : List (Bytes × ByteTree)) (i : Nat) :
    before count (spot :: order) (i + 1) = count spot.2 + before count order i := by
  rw [before, List.take_succ_cons, List.map_cons, sumOf_cons, before]

/-- The number of children of a node. -/
def fanOut (tree : ByteTree) : Nat :=
  tree.children.length

/-- One for a node with a table, zero for another. -/
def tableCount (tree : ByteTree) : Nat :=
  if tree.wide then 1 else 0

theorem length_spotsBelow (spot : Bytes × ByteTree) : (spotsBelow spot).length = spot.2.fanOut :=
  List.length_map ..

/-- What holds of the nodes of a queue, and of the children of a node of which it holds, holds of all
nodes. -/
theorem forall_mem_breadthFirst {P : Bytes × ByteTree → Prop}
    (step : ∀ spot, P spot → ∀ child ∈ spotsBelow spot, P child) {queue : List (Bytes × ByteTree)}
    (start : ∀ spot ∈ queue, P spot) : ∀ spot ∈ breadthFirst queue, P spot := by
  induction queue using breadthFirst.induct with
  | case1 => simp [breadthFirst]
  | case2 first queue ih =>
    rcases List.forall_mem_cons.1 start with ⟨here, others⟩
    rw [breadthFirst]
    exact List.forall_mem_cons.2 ⟨here, ih (List.forall_mem_append.2 ⟨others, step first here⟩)⟩

/-- A queue stands at the beginning of its order. -/
theorem prefix_breadthFirst (queue : List (Bytes × ByteTree)) : queue <+: breadthFirst queue := by
  induction queue using breadthFirst.induct with
  | case1 => exact List.nil_prefix
  | case2 first queue ih =>
    rw [breadthFirst]
    exact List.cons_prefix_cons.2 ⟨rfl, (List.prefix_append queue (spotsBelow first)).trans ih⟩

theorem getElem?_breadthFirst_queue {queue : List (Bytes × ByteTree)} {i : Nat}
    (inside : i < queue.length) : (breadthFirst queue)[i]? = queue[i]? := by
  rcases prefix_breadthFirst queue with ⟨rest, whole⟩
  rw [← whole, List.getElem?_append_left inside]

/-- The children of a node stand behind the queue and the children of all nodes before it. -/
theorem getElem?_breadthFirst_below {queue : List (Bytes × ByteTree)} {i : Nat}
    {spot : Bytes × ByteTree} (at_i : (breadthFirst queue)[i]? = some spot) {c : Nat}
    (inside : c < spot.2.fanOut) :
    (breadthFirst queue)[queue.length + before fanOut (breadthFirst queue) i + c]? =
      (spotsBelow spot)[c]? := by
  induction queue using breadthFirst.induct generalizing i with
  | case1 => simp [breadthFirst] at at_i
  | case2 first queue ih =>
    rw [breadthFirst] at at_i
    cases i with
    | zero =>
      -- The children of the first node wait behind the rest of the queue.
      obtain rfl : first = spot := Option.some.inj at_i
      rw [before_zero, Nat.add_zero, List.length_cons, Nat.add_right_comm, breadthFirst,
        List.getElem?_cons_succ, getElem?_breadthFirst_queue, List.getElem?_append_right] <;>
      simp [length_spotsBelow, inside]
    | succ i =>
      -- Behind the first node the queue is longer by its children, which count for the nodes behind.
      rw [List.getElem?_cons_succ] at at_i
      have found := ih at_i
      rw [List.length_append, length_spotsBelow] at found
      rw [breadthFirst, before_cons_succ, List.length_cons, ← found,
        show queue.length + 1 + (first.2.fanOut + before fanOut (breadthFirst (queue ++ spotsBelow first)) i)
            + c = queue.length + first.2.fanOut + before fanOut (breadthFirst (queue ++ spotsBelow first)) i
            + c + 1 by omega, List.getElem?_cons_succ]

/-- A node behind the queue is a child of a node before, and stands where that has its children. -/
theorem exists_parent {queue : List (Bytes × ByteTree)} {i : Nat} {child : Bytes × ByteTree}
    (behind : queue.length ≤ i) (at_i : (breadthFirst queue)[i]? = some child) :
    ∃ j spot c, (breadthFirst queue)[j]? = some spot ∧ (spotsBelow spot)[c]? = some child ∧
      i = queue.length + before fanOut (breadthFirst queue) j + c := by
  induction queue using breadthFirst.induct generalizing i with
  | case1 => simp [breadthFirst] at at_i
  | case2 first queue ih =>
    rw [List.length_cons] at behind
    obtain ⟨i, rfl⟩ : ∃ k, i = k + 1 := ⟨i - 1, by omega⟩
    rw [breadthFirst, List.getElem?_cons_succ] at at_i
    by_cases own : i < (queue ++ spotsBelow first).length
    · -- It is a child of the first node.
      rw [getElem?_breadthFirst_queue own, List.getElem?_append_right (by omega)] at at_i
      refine ⟨0, first, i - queue.length, by rw [breadthFirst]; rfl, at_i, ?_⟩
      rw [before_zero, List.length_cons]
      omega
    · rcases ih (Nat.le_of_not_lt own) at_i with ⟨j, spot, c, at_j, inBelow, rfl⟩
      refine ⟨j + 1, spot, c, by rw [breadthFirst]; exact at_j, inBelow, ?_⟩
      rw [breadthFirst, before_cons_succ, List.length_cons, List.length_append, length_spotsBelow]
      omega

/-! ## The order of one tree -/

/-- The nodes of a tree, from the root on. -/
def nodes (tree : ByteTree) : List (Bytes × ByteTree) :=
  breadthFirst [([], tree)]

theorem nodes_eq (tree : ByteTree) :
    tree.nodes = ([], tree) :: breadthFirst (spotsBelow ([], tree)) := by
  rw [nodes, breadthFirst, List.nil_append]

theorem getElem?_nodes_zero (tree : ByteTree) : tree.nodes[0]? = some ([], tree) := by
  rw [nodes_eq]
  rfl

/-- The position of the first child of a node. -/
def firstChild (tree : ByteTree) (i : Nat) : Nat :=
  1 + before fanOut tree.nodes i

theorem getElem?_nodes_child {tree : ByteTree} {i : Nat} {spot : Bytes × ByteTree}
    (at_i : tree.nodes[i]? = some spot) {c : Nat} {child : ByteTree}
    (place : spot.2.children[c]? = some child) :
    tree.nodes[tree.firstChild i + c]? = some (spot.1 ++ [child.byte], child) := by
  rcases List.getElem?_eq_some_iff.1 place with ⟨inside, -⟩
  refine (getElem?_breadthFirst_below at_i inside).trans ?_
  rw [spotsBelow, List.getElem?_map, place]
  rfl

/-- Every node but the root is a child. -/
theorem exists_parent_nodes {tree : ByteTree} {i : Nat} {child : Bytes × ByteTree} (inner : i ≠ 0)
    (at_i : tree.nodes[i]? = some child) :
    ∃ j spot c, tree.nodes[j]? = some spot ∧ spot.2.children[c]? = some child.2 ∧
      child.1 = spot.1 ++ [child.2.byte] ∧ i = tree.firstChild j + c := by
  rcases exists_parent (Nat.pos_of_ne_zero inner) at_i with ⟨j, spot, c, at_j, inBelow, place⟩
  rw [spotsBelow, List.getElem?_map, Option.map_eq_some_iff] at inBelow
  rcases inBelow with ⟨node, atChild, rfl⟩
  exact ⟨j, spot, c, at_j, atChild, rfl, place⟩

/-- A node stands in the order beside the path that leads to it, and has the shape of its depth. -/
theorem Shaped.of_mem_nodes {wideAbove remaining : Nat} {tree : ByteTree}
    (shaped : Shaped wideAbove remaining tree) {spot : Bytes × ByteTree} (member : spot ∈ tree.nodes) :
    tree.node? spot.1 = some spot.2 ∧ ∃ rest, Shaped wideAbove rest spot.2 := by
  refine forall_mem_breadthFirst (P := fun spot => tree.node? spot.1 = some spot.2 ∧
    ∃ rest, Shaped wideAbove rest spot.2) ?_ ?_ spot member
  · rintro ⟨path, node⟩ ⟨reached, rest, nodeShaped⟩ child inBelow
    rcases List.mem_map.1 inBelow with ⟨child, listed, rfl⟩
    cases rest with
    | zero =>
      rw [nodeShaped.1] at listed
      cases listed
    | succ rest =>
      refine ⟨?_, rest, nodeShaped.child listed⟩
      rw [node?_append, reached, Option.bind_some, node?, nodeShaped.step?_eq_some_iff.2 ⟨listed, rfl⟩]
      rfl
  · intro spot start
    rw [List.mem_singleton.1 start]
    exact ⟨rfl, remaining, shaped⟩

theorem Shaped.valueAt?_of_getElem?_nodes {wideAbove remaining : Nat} {tree : ByteTree}
    (shaped : Shaped wideAbove remaining tree) {i : Nat} {path : Bytes} {node : ByteTree}
    (at_i : tree.nodes[i]? = some (path, node)) : tree.valueAt? path = some node.value := by
  rw [valueAt?, (shaped.of_mem_nodes (List.mem_of_getElem? at_i)).1]
  rfl

end ByteTree

end GramCensus
