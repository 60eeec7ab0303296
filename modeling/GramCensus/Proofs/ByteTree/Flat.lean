import GramCensus.Proofs.ByteTree.Bare
import GramCensus.Proofs.ByteTree.Rows
import GramCensus.Proofs.ByteTree.Runs
import Mathlib.Data.List.Induction

/-!
# A flat tree does what its tree does

Along a key, the flat form of a tree goes through the positions of the nodes that the tree goes through
(`FlatTree.locate_eq_ok`), and leaves the tree where it does (`FlatTree.locate_eq_error`). Looking up and
setting numbers are therefore the same on both sides, and so are the sizes (`FlatTree.ofTree_mirrors`).
-/

namespace GramCensus

namespace FlatTree

open ByteTree

variable {wideAbove remaining : Nat} {tree : ByteTree} {i : Nat}

/-! ## Finding children -/

theorem getD_nodes {spot : Bytes × ByteTree} (at_i : tree.nodes[i]? = some spot) :
    (ofTree tree).nodes.getD i default =
      row spot.2 (tree.firstChild i) (before tableCount tree.nodes i) := by
  rw [ofTree_eq, Array.getD_eq_getD_getElem?, List.getElem?_toArray, getElem?_rows, at_i,
    Nat.zero_add]
  rfl

/-- Along rows with the bytes of some children, a byte is found as it is along the children. -/
theorem scan_eq {flat : FlatTree} {children : List ByteTree} {position : Nat}
    (stand : ∀ c child, children[c]? = some child →
      (flat.nodes.getD (position + c) default).byte = child.byte) (wanted : UInt8) :
    flat.scan wanted children.length position = positionIn? wanted position children := by
  induction children generalizing position with
  | nil => rfl
  | cons child children ih =>
    have first := stand 0 child rfl
    have rest : flat.scan wanted children.length (position + 1) =
        positionIn? wanted (position + 1) children := ih fun c sibling place => by
      rw [Nat.add_right_comm]
      exact stand (c + 1) sibling place
    rw [Nat.add_zero] at first
    rw [List.length_cons, scan, positionIn?, rest, first]

theorem positionIn?_add (wanted : UInt8) (start position : Nat) (children : List ByteTree) :
    positionIn? wanted (start + position) children =
      (positionIn? wanted position children).map (start + ·) := by
  induction children generalizing position with
  | nil => rfl
  | cons child children ih =>
    rw [positionIn?, positionIn?, Nat.add_assoc, ih]
    split
    · rfl
    · split <;> rfl

/-- The child for a byte stands as far behind the first child as it does among the children. -/
theorem child?_eq {spot : Bytes × ByteTree} (at_i : tree.nodes[i]? = some spot)
    (shaped : Shaped wideAbove remaining spot.2) (wanted : UInt8) :
    (ofTree tree).child? i wanted =
      (spot.2.childPosition? wanted).map (tree.firstChild i + ·) := by
  rw [child?, getD_nodes at_i]
  by_cases wide : spot.2.wide
  · -- An entry of the table is one more than the position of a child, or zero for no child.
    rw [row_table_of_wide wide, if_neg (Nat.succ_ne_zero _), Nat.add_sub_cancel, ofTree_eq]
    dsimp only
    cases remaining with
    | zero => simp [ByteTree.wide, shaped.2] at wide
    | succ remaining =>
      have held := getElem?_tableRows at_i wide 1 wanted.toNat_lt
      rw [← firstChild, childTable, getElem?_byteTable shaped.nodup_bytes] at held
      rw [Array.getD_eq_getD_getElem?, List.getElem?_toArray, held, shaped.childPosition?_eq]
      by_cases member : wanted ∈ spot.2.children.map byte
      · rw [if_pos member, if_pos member]
        rfl
      · rw [if_neg member, if_neg member]
        rfl
  · -- Both sides look along the children.
    have noTable : spot.2.table = none := Option.not_isSome_iff_eq_none.1 wide
    rw [row_table_of_narrow wide, if_pos rfl, childPosition?, noTable]
    refine (scan_eq (fun c child place => ?_) wanted).trans (positionIn?_add wanted _ 0 _)
    exact congrArg FlatNode.byte (getD_nodes (getElem?_nodes_child at_i place))

/-! ## Following keys -/

/-- A key that is in the tree leads to the position of its node. -/
theorem locate_eq_ok (shaped : Shaped wideAbove remaining tree) {path key : Bytes}
    {node found : ByteTree} (at_i : tree.nodes[i]? = some (path, node))
    (reached : node.node? key = some found) (depth : Nat) :
    ∃ j, (ofTree tree).locate depth i key = .ok j ∧ tree.nodes[j]? = some (path ++ key, found) := by
  induction key generalizing i path node depth with
  | nil =>
    obtain rfl : node = found := Option.some.inj reached
    exact ⟨i, rfl, by rw [List.append_nil]; exact at_i⟩
  | cons byte key ih =>
    rcases (shaped.of_mem_nodes (List.mem_of_getElem? at_i)).2 with ⟨rest, nodeShaped⟩
    rw [node?, Option.bind_eq_some_iff] at reached
    rcases reached with ⟨child, step, reached⟩
    rw [step?, Option.bind_eq_some_iff] at step
    rcases step with ⟨position, stands, place⟩
    -- The rest of the key is followed from the row of the child.
    have next := getElem?_nodes_child at_i place
    rcases nodeShaped.childPosition?_eq_some_iff.1 stands with ⟨_, place', rfl⟩
    obtain rfl := Option.some.inj (place.symm.trans place')
    rcases ih next reached (depth + 1) with ⟨j, located, at_j⟩
    refine ⟨j, ?_, by rw [at_j, List.append_assoc]; rfl⟩
    rw [locate, child?_eq at_i nodeShaped, stands]
    exact located

/-- A key that leaves the tree is refused as the tree refuses it. -/
theorem locate_eq_error (shaped : Shaped wideAbove remaining tree) {path key : Bytes}
    {node : ByteTree} (at_i : tree.nodes[i]? = some (path, node)) (absent : node.node? key = none)
    (change : UInt32 → UInt32) (depth : Nat) :
    ∃ failure, (ofTree tree).locate depth i key = .error failure ∧
      node.adjustFrom change depth key = .error failure := by
  induction key generalizing i path node depth with
  | nil => cases absent
  | cons byte key ih =>
    rcases (shaped.of_mem_nodes (List.mem_of_getElem? at_i)).2 with ⟨rest, nodeShaped⟩
    rw [node?] at absent
    rw [locate, child?_eq at_i nodeShaped, adjustFrom]
    cases stands : node.childPosition? byte with
    | none => exact ⟨_, rfl, by rw [step?, stands]; rfl⟩
    | some position =>
      rcases nodeShaped.childPosition?_eq_some_iff.1 stands with ⟨child, place, -⟩
      have step : node.step? byte = some child := by rw [step?, stands]; exact place
      rw [step, Option.bind_some] at absent
      rcases ih (getElem?_nodes_child at_i place) absent (depth + 1) with ⟨failure, refused, refused'⟩
      refine ⟨failure, refused, ?_⟩
      rw [step]
      dsimp only
      rw [refused']

/-- A key that is one byte longer leads on to the child for the byte. -/
theorem locate_append_singleton {flat : FlatTree} {depth j c : Nat} {path : Bytes}
    (located : flat.locate depth i path = .ok j) {byte : UInt8} (found : flat.child? j byte = some c) :
    flat.locate depth i (path ++ [byte]) = .ok c := by
  induction path generalizing depth i with
  | nil =>
    cases located
    rw [List.nil_append, locate, found]
    rfl
  | cons first path ih =>
    rw [List.cons_append, locate]
    rw [locate] at located
    split at located
    · cases located
    · exact ih located

/-- The path to a node leads to its position. -/
theorem locate_path (shaped : Shaped wideAbove remaining tree) {path : Bytes} {node : ByteTree}
    (at_i : tree.nodes[i]? = some (path, node)) : (ofTree tree).locate 0 0 path = .ok i := by
  induction path using List.reverseRecOn generalizing i node with
  | nil =>
    -- Only the path to the root is empty.
    by_cases root : i = 0
    · rw [root]
      rfl
    · rcases exists_parent_nodes root at_i with ⟨_, _, _, -, -, path_eq, -⟩
      simp at path_eq
  | append_singleton path byte ih =>
    have inner : i ≠ 0 := by
      rintro rfl
      simp [getElem?_nodes_zero] at at_i
    rcases exists_parent_nodes inner at_i with ⟨j, ⟨parentPath, parent⟩, c, at_j, place, path_eq, rfl⟩
    rcases (shaped.of_mem_nodes (List.mem_of_getElem? at_j)).2 with ⟨rest, parentShaped⟩
    rcases List.append_inj' path_eq rfl with ⟨rfl, last⟩
    obtain rfl : byte = node.byte := (List.cons.inj last).1
    refine locate_append_singleton (ih at_j) ?_
    rw [child?_eq at_j parentShaped, parentShaped.childPosition?_eq_some_iff.2 ⟨node, place, rfl⟩]
    rfl

/-- No path stands in the order twice. -/
theorem position_unique (shaped : Shaped wideAbove remaining tree) {path : Bytes}
    {node other : ByteTree} {j : Nat} (at_i : tree.nodes[i]? = some (path, node))
    (at_j : tree.nodes[j]? = some (path, other)) : i = j :=
  Except.ok.inj ((locate_path shaped at_i).symm.trans (locate_path shaped at_j))

/-! ## Looking numbers up -/

theorem search_eq (shaped : Shaped wideAbove remaining tree) (key : Bytes) :
    (ofTree tree).search key = tree.get? key := by
  have root := getElem?_nodes_zero tree
  rw [search, get?, leaf?]
  cases reached : tree.node? key with
  | none =>
    rcases locate_eq_error shaped root reached id 0 with ⟨failure, refused, -⟩
    rw [refused]
    rfl
  | some node =>
    rcases locate_eq_ok shaped root reached 0 with ⟨j, located, at_j⟩
    rw [located]
    dsimp only
    rw [getD_nodes at_j]
    rcases node with ⟨byte, value, table, children⟩
    cases children <;> rfl

/-! ## Counting keys -/

mutual
/-- The number of leaves of a tree, the root too. -/
def leafCount : ByteTree → Nat
  | .node _ _ _ children => if children.isEmpty then 1 else leafCountIn children

/-- The number of leaves of some trees. -/
def leafCountIn : List ByteTree → Nat
  | [] => 0
  | child :: rest => leafCount child + leafCountIn rest
end

theorem leafCountIn_append (first second : List ByteTree) :
    leafCountIn (first ++ second) = leafCountIn first + leafCountIn second := by
  induction first with
  | nil => simp [leafCountIn]
  | cons tree first ih => simp [leafCountIn, ih, Nat.add_assoc]

/-- The order holds the leaves of the nodes of the queue. -/
theorem countP_breadthFirst (queue : List (Bytes × ByteTree)) :
    (breadthFirst queue).countP (fun spot => spot.2.fanOut == 0) = leafCountIn (queue.map (·.2)) := by
  induction queue using breadthFirst.induct with
  | case1 => simp [breadthFirst, leafCountIn]
  | case2 first queue ih =>
    rcases first with ⟨path, byte, value, table, children⟩
    rw [breadthFirst, List.countP_cons, ih, List.map_append, leafCountIn_append, map_snd_spotsBelow,
      List.map_cons, leafCountIn, leafCount]
    cases children with
    | nil => simp [leafCountIn, fanOut, ByteTree.children, Nat.add_comm]
    | cons child children => simp [fanOut, ByteTree.children, Nat.add_comm]

theorem countP_rows (firstChild tables : Nat) (order : List (Bytes × ByteTree)) :
    (rows firstChild tables order).countP (fun node => node.fanOut == 0) =
      order.countP fun spot => spot.2.fanOut == 0 := by
  induction order generalizing firstChild tables with
  | nil => rfl
  | cons spot order ih =>
    rw [rows, List.countP_cons, List.countP_cons, ih]
    rfl

theorem leafCountIn_eq {trees : List ByteTree}
    (each : ∀ tree ∈ trees, leafCount tree = (entries remaining tree).length) :
    leafCountIn trees = (entriesIn (entries remaining) trees).length := by
  induction trees with
  | nil => rfl
  | cons tree trees ih =>
    rcases List.forall_mem_cons.1 each with ⟨first, others⟩
    rw [leafCountIn, entriesIn_cons, List.length_append, List.length_map, first, ih others]

/-- Every leaf is the end of a key. -/
theorem leafCount_eq (shaped : Shaped wideAbove remaining tree) :
    leafCount tree = (entries remaining tree).length := by
  induction remaining generalizing tree with
  | zero =>
    rcases tree with ⟨byte, value, table, children⟩
    obtain rfl : children = [] := shaped.1
    simp [leafCount, entries]
  | succ remaining ih =>
    rcases tree with ⟨byte, value, table, children⟩
    have inner : ¬ children.isEmpty = true := fun none => shaped.1 (List.isEmpty_iff.1 none)
    rw [leafCount, if_neg inner]
    exact leafCountIn_eq fun child member => ih (shaped.child member)

theorem size_eq (shaped : Shaped wideAbove remaining tree) : (ofTree tree).size = tree.size := by
  have leaves : (ofTree tree).size = leafCountIn tree.children := by
    rw [size, ofTree_eq, nodes_eq, rows, List.drop_one, List.tail_cons, countP_rows,
      countP_breadthFirst, map_snd_spotsBelow]
  rw [leaves, ByteTree.size]
  cases remaining with
  | zero =>
    -- The root of an empty tree is a leaf, but neither side counts it.
    rw [toList, shaped.1]
    simp [walk, leafCountIn]
  | succ remaining =>
    rw [shaped.toList_eq]
    exact leafCountIn_eq fun child member => leafCount_eq (shaped.child member)

/-! ## Setting numbers -/

/-- Rows of nodes that differ in their numbers alone differ there alone. -/
theorem row_eq_of_bare {node other : ByteTree} (same : bare other = bare node)
    (firstChild tables : Nat) :
    row other firstChild tables = { row node firstChild tables with value := other.value } := by
  have byte_eq := congrArg byte same
  have wide_eq := congrArg ByteTree.wide same
  have fanOut_eq := congrArg ByteTree.fanOut same
  rw [byte_bare, byte_bare] at byte_eq
  rw [wide_bare, wide_bare] at wide_eq
  rw [fanOut_bare, fanOut_bare] at fanOut_eq
  rw [row, row, byte_eq, wide_eq, fanOut_eq]

theorem tableRows_map_bareSpot (firstChild : Nat) (order : List (Bytes × ByteTree)) :
    tableRows firstChild (order.map bareSpot) = tableRows firstChild order := by
  induction order generalizing firstChild with
  | nil => rfl
  | cons spot order ih =>
    have same : (spot.2.children.map bare).map byte = spot.2.children.map byte := by simp
    rw [List.map_cons, bareSpot, tableRows, tableRows, ih, fanOut_bare, ownTable, ownTable, wide_bare,
      childTable, childTable, children_bare, same]

/-- Where the number at a path is changed, the row of its node has the new number, and all other rows
are as they were. -/
theorem rows_adjusted (shaped : Shaped wideAbove remaining tree) {after : ByteTree}
    (shapedAfter : Shaped wideAbove remaining after) (same : bare after = bare tree) {key : Bytes}
    {node : ByteTree} {j : Nat} (at_j : tree.nodes[j]? = some (key, node)) {number : UInt32}
    (values : ∀ path, after.valueAt? path = if path = key then some number else tree.valueAt? path) :
    rows 1 0 after.nodes =
      (rows 1 0 tree.nodes).modify j fun row => { row with value := number } := by
  have spots := map_bareSpot_nodes same
  refine List.ext_getElem? fun i => ?_
  have spots_i := congrArg (fun order => order[i]?) spots
  rw [List.getElem?_map, List.getElem?_map] at spots_i
  rw [List.getElem?_modify, getElem?_rows, getElem?_rows]
  cases at_i : tree.nodes[i]? with
  | none =>
    rw [at_i, Option.map_none, Option.map_eq_none_iff] at spots_i
    rw [spots_i]
    rfl
  | some spot =>
    rw [at_i, Option.map_some, Option.map_eq_some_iff] at spots_i
    rcases spots_i with ⟨other, after_i, bareSpot_eq⟩
    rcases spot with ⟨path, node'⟩
    rcases other with ⟨path', other⟩
    obtain ⟨rfl, bare_eq⟩ := Prod.mk.inj bareSpot_eq
    have value_eq := values path'
    rw [shapedAfter.valueAt?_of_getElem?_nodes after_i, shaped.valueAt?_of_getElem?_nodes at_i]
      at value_eq
    rw [after_i, before_nodes_eq same fanOut_bare, before_nodes_eq same tableCount_bare]
    dsimp only [Option.map_some, Option.map_eq_map]
    rw [row_eq_of_bare bare_eq]
    by_cases here : j = i
    · subst here
      obtain ⟨rfl, -⟩ := Prod.mk.inj (Option.some.inj (at_i.symm.trans at_j))
      rw [if_pos rfl] at value_eq
      rw [if_pos rfl, Option.some.inj value_eq]
    · have elsewhere : path' ≠ key := by
        rintro rfl
        exact here (position_unique shaped at_j at_i)
      rw [if_neg elsewhere] at value_eq
      rw [if_neg here, Option.some.inj value_eq]
      rfl

/-- Setting a number in the flat form gives the flat form of the tree where it is set. -/
theorem set_eq (shaped : Shaped wideAbove remaining tree) (key : Bytes) (number : UInt32) :
    (ofTree tree).set key number = (tree.set key number).map ofTree := by
  have root := getElem?_nodes_zero tree
  rw [set]
  cases reached : tree.node? key with
  | none =>
    rcases locate_eq_error shaped root reached (fun _ => number) 0 with ⟨failure, refused, refused'⟩
    rw [refused, ByteTree.set, adjust, refused']
    rfl
  | some node =>
    rcases locate_eq_ok shaped root reached 0 with ⟨j, located, at_j⟩
    rcases shaped.adjustFrom_eq_ok reached (fun _ => number) 0 with
      ⟨after, adjusted, shapedAfter, -, values, -⟩
    have same := shaped.bare_adjustFrom adjusted
    have tables : tableRows 1 after.nodes = tableRows 1 tree.nodes := by
      rw [← tableRows_map_bareSpot, map_bareSpot_nodes same, tableRows_map_bareSpot]
    have rows := rows_adjusted shaped shapedAfter same at_j values
    rw [located, ByteTree.set, adjust, adjusted, Except.map, ofTree_eq, ofTree_eq, tables, rows]
    dsimp only
    rw [List.modify_toArray]

/-! ## The two sides -/

/-- A flat tree does what a tree does. -/
structure Mirrors (flat : FlatTree) (tree : ByteTree) : Prop where
  search_eq : ∀ key, flat.search key = tree.get? key
  size_eq : flat.size = tree.size
  /-- Setting a number gives the flat form of the tree in which it is set, or fails as the tree does. -/
  set_eq : ∀ key number, flat.set key number = (tree.set key number).map ofTree
  refused : ∀ key number failure, tree.set key number = .error failure →
    ∃ depth byte, failure = .missingChild depth byte

theorem ofTree_mirrors_of_shaped (shaped : Shaped wideAbove remaining tree) :
    Mirrors (ofTree tree) tree where
  search_eq := search_eq shaped
  size_eq := size_eq shaped
  set_eq := set_eq shaped
  refused key number failure fails := by
    cases reached : tree.node? key with
    | none =>
      rcases adjustFrom_eq_error reached with ⟨shared, byte, -, -, -, -, refused⟩
      rw [ByteTree.set, adjust, refused] at fails
      cases fails
      exact ⟨_, _, rfl⟩
    | some node =>
      rcases shaped.adjustFrom_eq_ok reached (fun _ => number) 0 with ⟨after, adjusted, -⟩
      rw [ByteTree.set, adjust, adjusted] at fails
      cases fails

/-- Whatever calls follow each other on a tree that was built, the empty one too: its flat form does what
the tree does. -/
theorem ofTree_mirrors {plan : TreePlan} {grams : Bytes} {length : Nat}
    (built : build plan grams length = .ok tree) (calls : List TreeCall) :
    Mirrors (ofTree (tree.run calls)) (tree.run calls) := by
  by_cases none : grams = []
  · subst none
    have leaf : Shaped plan.wideAbove 0 tree := by
      rw [build_nil built]
      exact ⟨rfl, rfl⟩
    exact ofTree_mirrors_of_shaped (leaf.run_leaf calls)
  · rcases shaped_of_build built none with ⟨remaining, shaped, -⟩
    exact ofTree_mirrors_of_shaped (shaped.run calls).1

/-- Three n-grams, in a tree with a table at the root alone. -/
theorem ofTree_mirrors_of_wide_root :
    ∃ tree, build ⟨0, 9, 1⟩ [1, 4, 2, 4, 3, 6] 2 = .ok tree ∧
      ∀ calls : List TreeCall, Mirrors (ofTree (tree.run calls)) (tree.run calls) := by
  have succeeds : (build ⟨0, 9, 1⟩ [1, 4, 2, 4, 3, 6] 2).isOk := by decide +kernel
  rcases exists_of_isOk succeeds with ⟨tree, built⟩
  exact ⟨tree, built, ofTree_mirrors built⟩

end FlatTree

end GramCensus
