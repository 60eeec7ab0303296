import Mathlib.Data.List.Shortlex
import GramCensus.Proofs.ByteTree.Flat
import GramCensus.Proofs.RankTrie.Sizes

/-!
# Where nodes stand

In breadth-first order a node comes before another if its path does: shorter paths come first, and
paths of one length by their bytes (`ByteTree.Shaped.pairwise_paths`). The paths are the beginnings of the
keys, so these are counted by the nodes (`ByteTree.Shaped.length_nodes`). Every node stands before its
children (`ByteTree.lt_firstChild`), and the children of all nodes are all nodes but the root
(`ByteTree.firstChild_length`).
-/

namespace GramCensus

namespace ByteTree

variable {wideAbove remaining : Nat} {tree : ByteTree}

/-! ## Shapes of children -/

namespace Shaped

theorem ascending (shaped : Shaped wideAbove remaining tree) :
    (tree.children.map byte).Pairwise (· < ·) := by
  cases remaining with
  | zero => simp [shaped.1]
  | succ remaining => exact shaped.2.2.1

theorem exists_shaped_child (shaped : Shaped wideAbove remaining tree) {child : ByteTree}
    (member : child ∈ tree.children) : ∃ rest, Shaped wideAbove rest child := by
  cases remaining with
  | zero => simp [shaped.1] at member
  | succ remaining => exact ⟨remaining, shaped.child member⟩

theorem wide_iff (shaped : Shaped wideAbove remaining tree) :
    tree.wide = true ↔ wideAbove < tree.fanOut := by
  cases remaining with
  | zero => simp [wide, fanOut, shaped.1, shaped.2]
  | succ remaining =>
    rw [wide, shaped.2.1, tableOf?, fanOut]
    split <;> simp [*]

/-- There are no more children than bytes. -/
theorem fanOut_le (shaped : Shaped wideAbove remaining tree) : tree.fanOut ≤ 256 := by
  have distinct : (tree.children.map byte).Nodup := shaped.ascending.imp UInt8.ne_of_lt
  have among := (distinct.subperm fun byte _ => mem_allBytes byte).length_le
  rwa [List.length_map, length_allBytes] at among

end Shaped

/-! ## The order of paths -/

/-- Shorter paths come first, and paths of one length by their bytes. -/
abbrev Precedes : Bytes → Bytes → Prop :=
  List.Shortlex (· < ·)

theorem precedes_append_singleton (path : Bytes) (byte : UInt8) : Precedes path (path ++ [byte]) :=
  .of_length_lt (by simp)

theorem Precedes.append_singletons {first second : Bytes} (precedes : Precedes first second)
    (x y : UInt8) : Precedes (first ++ [x]) (second ++ [y]) := by
  rcases List.shortlex_def.1 precedes with shorter | ⟨same, smaller⟩
  · exact .of_length_lt (by simpa using shorter)
  · refine .of_lex (by simp [same]) ?_
    clear precedes
    induction smaller with
    | nil => cases same
    | cons _ ih => exact .cons (ih (Nat.succ.inj same))
    | rel smaller => exact .rel smaller

/-- One node is taken from the queue before another: its path comes first, but those of its children
come behind both. -/
def TakenBefore (first second : Bytes × ByteTree) : Prop :=
  Precedes first.1 second.1 ∧ ∀ byte, Precedes second.1 (first.1 ++ [byte])

/-- Taking a node from a queue and adding its children keeps the queue in order. -/
theorem pairwise_takenBefore {spot : Bytes × ByteTree} {queue : List (Bytes × ByteTree)}
    (ascending : (spot.2.children.map byte).Pairwise (· < ·))
    (ordered : (spot :: queue).Pairwise TakenBefore) :
    (queue ++ spotsBelow spot).Pairwise TakenBefore := by
  rcases List.pairwise_cons.1 ordered with ⟨first, others⟩
  refine List.pairwise_append.2 ⟨others, ?siblings, ?children⟩
  case siblings =>
    -- The paths of siblings differ in their last bytes alone.
    rw [spotsBelow, List.pairwise_map]
    refine (List.pairwise_map.1 ascending).imp fun {a b} smaller => ⟨?_, fun byte => ?_⟩
    · exact .append_left ((List.shortlex_singleton_iff _ _).2 smaller) spot.1
    · exact .of_length_lt (by simp)
  case children =>
    -- What waits was taken behind the parent, so its children come behind those of the parent.
    intro waiting inQueue child inBelow
    rcases List.mem_map.1 inBelow with ⟨node, -, rfl⟩
    rcases first waiting inQueue with ⟨earlier, later⟩
    exact ⟨later node.byte, fun byte => earlier.append_singletons node.byte byte⟩

/-- The order of the queue is the order in which all nodes are taken. -/
theorem pairwise_breadthFirst {queue : List (Bytes × ByteTree)}
    (shaped : ∀ spot ∈ queue, ∃ rest, Shaped wideAbove rest spot.2)
    (ordered : queue.Pairwise TakenBefore) :
    ((breadthFirst queue).map (·.1)).Pairwise Precedes := by
  induction queue using breadthFirst.induct with
  | case1 => simp [breadthFirst]
  | case2 spot queue ih =>
    rcases List.forall_mem_cons.1 shaped with ⟨⟨rest, shapedSpot⟩, others⟩
    have shapedBelow : ∀ child ∈ spotsBelow spot, ∃ rest, Shaped wideAbove rest child.2 := by
      intro child inBelow
      rcases List.mem_map.1 inBelow with ⟨node, member, rfl⟩
      exact shapedSpot.exists_shaped_child member
    rw [breadthFirst, List.map_cons, List.pairwise_cons, List.forall_mem_map]
    constructor
    · -- What comes before a node comes before its children.
      refine forall_mem_breadthFirst (fun node before child inBelow => ?_) fun node waiting => ?_
      · rcases List.mem_map.1 inBelow with ⟨_, -, rfl⟩
        exact before.append_right _
      · rcases List.mem_append.1 waiting with inQueue | inBelow
        · exact ((List.pairwise_cons.1 ordered).1 node inQueue).1
        · rcases List.mem_map.1 inBelow with ⟨child, -, rfl⟩
          exact precedes_append_singleton spot.1 child.byte
    · exact ih (List.forall_mem_append.2 ⟨others, shapedBelow⟩)
        (pairwise_takenBefore shapedSpot.ascending ordered)

/-- The paths to the nodes of a tree, in breadth-first order. -/
def paths (tree : ByteTree) : List Bytes :=
  tree.nodes.map (·.1)

namespace Shaped

theorem pairwise_paths (shaped : Shaped wideAbove remaining tree) :
    tree.paths.Pairwise Precedes := by
  have start : ∀ spot ∈ [(([] : Bytes), tree)], ∃ rest, Shaped wideAbove rest spot.2 :=
    List.forall_mem_singleton.2 ⟨remaining, shaped⟩
  exact pairwise_breadthFirst start (List.pairwise_singleton _ _)

theorem mem_paths_iff (shaped : Shaped wideAbove remaining tree) {path : Bytes} :
    path ∈ tree.paths ↔ (tree.node? path).isSome := by
  constructor
  · intro member
    rcases List.mem_map.1 member with ⟨spot, listed, rfl⟩
    rw [(shaped.of_mem_nodes listed).1]
    rfl
  · intro reached
    rcases Option.isSome_iff_exists.1 reached with ⟨found, reached⟩
    rcases FlatTree.locate_eq_ok shaped (getElem?_nodes_zero tree) reached 0 with ⟨j, -, at_j⟩
    exact List.mem_map.2 ⟨_, List.mem_of_getElem? at_j, rfl⟩

/-- There is one node for the root, and one for each beginning of a key with at least one byte. -/
theorem length_nodes (shaped : Shaped wideAbove remaining tree) {keys : List Bytes}
    (reached : ∀ path, (tree.node? path).isSome ↔ path = [] ∨ path ∈ nodePaths keys) :
    tree.nodes.length = 1 + ((nodePaths keys).erase []).card := by
  have distinct : tree.paths.Nodup := by
    refine shaped.pairwise_paths.imp fun {first second} before same => ?_
    rw [same] at before
    exact Std.Irrefl.irrefl second before
  have members : tree.paths.toFinset = insert [] ((nodePaths keys).erase []) := by
    ext path
    rw [List.mem_toFinset, shaped.mem_paths_iff, reached]
    by_cases root : path = [] <;> simp [root]
  calc tree.nodes.length
      = tree.paths.length := (List.length_map _).symm
    _ = tree.paths.toFinset.card := (List.toFinset_card_of_nodup distinct).symm
    _ = (insert [] ((nodePaths keys).erase [])).card := congrArg Finset.card members
    _ = 1 + ((nodePaths keys).erase []).card := by
      rw [Finset.card_insert_of_notMem (Finset.notMem_erase _ _), Nat.add_comm]

end Shaped

/-! ## Positions of children -/

/-- A node stands before its children. -/
theorem lt_before_breadthFirst {queue : List (Bytes × ByteTree)} {i : Nat}
    (inside : i < (breadthFirst queue).length) :
    i < queue.length + before fanOut (breadthFirst queue) i := by
  induction queue using breadthFirst.induct generalizing i with
  | case1 => simp [breadthFirst] at inside
  | case2 first queue ih =>
    rw [breadthFirst] at inside ⊢
    cases i with
    | zero => simp
    | succ i =>
      -- The children of the first node lengthen the queue by as many as they count for behind it.
      have earlier := ih (Nat.lt_of_succ_lt_succ inside)
      rw [List.length_append, length_spotsBelow] at earlier
      rw [before_cons_succ, List.length_cons]
      omega

/-- Behind the queue there are the children of all nodes and nothing else. -/
theorem length_breadthFirst (queue : List (Bytes × ByteTree)) :
    (breadthFirst queue).length =
      queue.length + before fanOut (breadthFirst queue) (breadthFirst queue).length := by
  induction queue using breadthFirst.induct with
  | case1 => simp [breadthFirst]
  | case2 first queue ih =>
    rw [List.length_append, length_spotsBelow] at ih
    rw [breadthFirst, List.length_cons, before_cons_succ, List.length_cons]
    omega

theorem lt_firstChild {i : Nat} (inside : i < tree.nodes.length) : i < tree.firstChild i :=
  lt_before_breadthFirst inside

theorem firstChild_length (tree : ByteTree) : tree.firstChild tree.nodes.length = tree.nodes.length :=
  (length_breadthFirst [([], tree)]).symm

end ByteTree

end GramCensus
