import GramCensus.Proofs.ByteTree.BreadthFirst

/-!
# Trees without their numbers

Changing a number leaves the tree as it is without its numbers (`ByteTree.Shaped.bare_adjustFrom`), and
with it the order of the nodes and what is counted along that (`ByteTree.map_bareSpot_nodes`,
`ByteTree.before_map_bareSpot`).
-/

namespace GramCensus

namespace ByteTree

mutual
/-- A tree without its numbers. -/
def bare : ByteTree → ByteTree
  | .node byte _ table children => .node byte 0 table (bareIn children)

/-- Trees without their numbers. -/
def bareIn : List ByteTree → List ByteTree
  | [] => []
  | child :: rest => bare child :: bareIn rest
end

theorem bareIn_eq (trees : List ByteTree) : bareIn trees = trees.map bare := by
  induction trees with
  | nil => rfl
  | cons tree trees ih => rw [bareIn, ih, List.map_cons]

@[simp] theorem byte_bare (tree : ByteTree) : (bare tree).byte = tree.byte := by
  cases tree
  rfl

@[simp] theorem wide_bare (tree : ByteTree) : (bare tree).wide = tree.wide := by
  cases tree
  rfl

@[simp] theorem children_bare (tree : ByteTree) : (bare tree).children = tree.children.map bare := by
  cases tree
  exact bareIn_eq _

@[simp] theorem fanOut_bare (tree : ByteTree) : (bare tree).fanOut = tree.fanOut := by
  rw [fanOut, children_bare, List.length_map, fanOut]

@[simp] theorem tableCount_bare (tree : ByteTree) : (bare tree).tableCount = tree.tableCount := by
  rw [tableCount, wide_bare, tableCount]

/-- Changing the number at a path changes nothing else. -/
theorem Shaped.bare_adjustFrom {wideAbove remaining : Nat} {tree : ByteTree}
    (shaped : Shaped wideAbove remaining tree) {change : UInt32 → UInt32}
    {depth : Nat} {key : Bytes} {after : ByteTree}
    (adjusted : tree.adjustFrom change depth key = .ok after) : bare after = bare tree := by
  induction key generalizing tree remaining depth after with
  | nil =>
    cases adjusted
    cases tree
    rfl
  | cons byte key ih =>
    rw [adjustFrom] at adjusted
    split at adjusted
    · cases adjusted
    case h_2 child step =>
      split at adjusted
      · cases adjusted
      case h_2 changed adjustedBelow =>
        cases adjusted
        cases remaining with
        | zero =>
          rw [shaped.step?_leaf] at step
          cases step
        | succ remaining =>
          rcases shaped.step?_eq_some_iff.1 step with ⟨member, rfl⟩
          have same := ih (shaped.child member) adjustedBelow
          rcases tree with ⟨top, value, table, children⟩
          rw [shaped.setChild_eq, bare, bare, bareIn_eq, bareIn_eq, replaced, List.map_map]
          congr 1
          refine List.map_congr_left fun sibling listed => ?_
          rw [Function.comp_apply]
          split
          case isTrue here => rw [same, List.inj_on_of_nodup_map shaped.nodup_bytes listed member here]
          case isFalse => rfl

/-- The node of a spot without its numbers. -/
def bareSpot (spot : Bytes × ByteTree) : Bytes × ByteTree :=
  (spot.1, bare spot.2)

theorem spotsBelow_bareSpot (spot : Bytes × ByteTree) :
    spotsBelow (bareSpot spot) = (spotsBelow spot).map bareSpot := by
  simp [spotsBelow, bareSpot]

/-- The order of nodes does not depend on their numbers. -/
theorem breadthFirst_map_bareSpot (queue : List (Bytes × ByteTree)) :
    breadthFirst (queue.map bareSpot) = (breadthFirst queue).map bareSpot := by
  induction queue using breadthFirst.induct with
  | case1 => simp [breadthFirst]
  | case2 first queue ih =>
    rw [List.map_cons, breadthFirst, breadthFirst, List.map_cons, spotsBelow_bareSpot,
      ← List.map_append, ih]

theorem map_bareSpot_nodes {tree after : ByteTree} (same : bare after = bare tree) :
    after.nodes.map bareSpot = tree.nodes.map bareSpot := by
  rw [nodes, nodes, ← breadthFirst_map_bareSpot, ← breadthFirst_map_bareSpot]
  exact congrArg (fun root => breadthFirst [([], root)]) same

theorem before_map_bareSpot {count : ByteTree → Nat} (keeps : ∀ tree, count (bare tree) = count tree)
    (order : List (Bytes × ByteTree)) (i : Nat) :
    before count (order.map bareSpot) i = before count order i := by
  rw [before, before, ← List.map_take, List.map_map]
  exact congrArg sumOf (List.map_congr_left fun spot _ => keeps spot.2)

/-- What is counted along the order does not depend on the numbers either. -/
theorem before_nodes_eq {tree after : ByteTree} (same : bare after = bare tree)
    {count : ByteTree → Nat} (keeps : ∀ tree, count (bare tree) = count tree) (i : Nat) :
    before count after.nodes i = before count tree.nodes i := by
  rw [← before_map_bareSpot keeps, map_bareSpot_nodes same, before_map_bareSpot keeps]

end ByteTree

end GramCensus
