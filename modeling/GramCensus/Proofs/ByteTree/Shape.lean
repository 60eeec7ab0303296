import GramCensus.ByteTree.Build
import GramCensus.Proofs.ByteTable

/-!
# The shape of byte trees

All leaves of a tree that was built are equally deep, and every node can find its children
(`ByteTree.Shaped`): with a table and without one, the child for a byte is found at its place, and no
other (`ByteTree.Shaped.childPosition?_eq_some_iff`). So what a tree holds is a list of keys with their
numbers (`ByteTree.entries`). The paths in the tree are the beginnings of its keys
(`ByteTree.Shaped.node?_isSome_iff`), and looking keys up reads the list
(`ByteTree.Shaped.get?_eq_some_iff`).
-/

namespace GramCensus

namespace ByteTree

/-! ## Shape -/

/-- All leaves of a tree are `remaining` bytes below its root. At every node above them the children
stand by ascending byte, with a table if there are more of them than `wideAbove`. -/
def Shaped (wideAbove : Nat) : (remaining : Nat) → ByteTree → Prop
  | 0, tree => tree.children = [] ∧ tree.table = none
  | remaining + 1, tree =>
    tree.children ≠ [] ∧ tree.table = tableOf? wideAbove tree.children ∧
      (tree.children.map byte).Pairwise (· < ·) ∧
      ∀ child ∈ tree.children, Shaped wideAbove remaining child

/-- The keys of siblings with their numbers, from what is below each of them. -/
def entriesIn (below : ByteTree → List (Bytes × UInt32)) (trees : List ByteTree) :
    List (Bytes × UInt32) :=
  trees.flatMap fun tree => (below tree).map fun pair => (tree.byte :: pair.1, pair.2)

theorem entriesIn_cons (below : ByteTree → List (Bytes × UInt32)) (tree : ByteTree)
    (trees : List ByteTree) :
    entriesIn below (tree :: trees) =
      (below tree).map (fun pair => (tree.byte :: pair.1, pair.2)) ++ entriesIn below trees :=
  List.flatMap_cons

/-- The keys below a node whose leaves are `remaining` bytes below it, with their numbers. -/
def entries : (remaining : Nat) → ByteTree → List (Bytes × UInt32)
  | 0, tree => [([], tree.value)]
  | remaining + 1, tree => entriesIn (entries remaining) tree.children

theorem mem_entries_succ {remaining : Nat} {tree : ByteTree} {pair : Bytes × UInt32} :
    pair ∈ entries (remaining + 1) tree ↔
      ∃ child ∈ tree.children, ∃ below ∈ entries remaining child,
        pair = (child.byte :: below.1, below.2) := by
  simp only [entries, entriesIn, List.mem_flatMap, List.mem_map]
  refine exists_congr fun child => and_congr_right fun _ => exists_congr fun below => ?_
  exact and_congr_right fun _ => eq_comm

/-! ## Finding children -/

/-- Along children by ascending byte, the child for a byte is found and nothing else. -/
theorem positionIn?_eq {children : List ByteTree} (sorted : (children.map byte).Pairwise (· < ·))
    (wanted : UInt8) (position : Nat) :
    positionIn? wanted position children =
      if wanted ∈ children.map byte then some (position + (children.map byte).idxOf wanted)
      else none := by
  induction children generalizing position with
  | nil => rfl
  | cons child children ih =>
    rcases List.pairwise_cons.1 sorted with ⟨least, sortedRest⟩
    rw [positionIn?]
    by_cases same : child.byte = wanted
    · rw [if_pos same, List.map_cons, same, if_pos List.mem_cons_self, List.idxOf_cons_self,
        Nat.add_zero]
    · rw [if_neg same]
      by_cases smaller : wanted < child.byte
      · -- The bytes behind are larger still.
        have absent : wanted ∉ (child :: children).map byte := by
          intro member
          rcases List.mem_cons.1 member with first | later
          · exact same first.symm
          · exact UInt8.lt_irrefl _ (UInt8.lt_trans smaller (least wanted later))
        rw [if_pos smaller, if_neg absent]
      · rw [if_neg smaller, ih sortedRest, List.map_cons, List.idxOf_cons_ne _ same]
        simp only [List.mem_cons, Ne.symm same, false_or]
        split
        · congr 1
          omega
        · rfl

namespace Shaped

variable {wideAbove remaining : Nat} {tree : ByteTree}

theorem nodup_bytes (shaped : Shaped wideAbove (remaining + 1) tree) :
    (tree.children.map byte).Nodup :=
  shaped.2.2.1.imp UInt8.ne_of_lt

/-- With a table or without one, a node looks a byte up among the bytes of its children. -/
theorem childPosition?_eq (shaped : Shaped wideAbove (remaining + 1) tree) (wanted : UInt8) :
    tree.childPosition? wanted =
      if wanted ∈ tree.children.map byte then some ((tree.children.map byte).idxOf wanted)
      else none := by
  rcases shaped with ⟨-, table_eq, sorted, -⟩
  rw [childPosition?, table_eq, tableOf?]
  by_cases many : wideAbove < tree.children.length
  · have held := getElem?_byteTable (sorted.imp UInt8.ne_of_lt) none some wanted
    rw [if_pos many]
    dsimp only
    rw [Array.getD_eq_getD_getElem?, held, Option.getD_some]
  · rw [if_neg many]
    dsimp only
    rw [positionIn?_eq sorted, Nat.zero_add]

/-- A leaf has no children to find. -/
theorem childPosition?_leaf (shaped : Shaped wideAbove 0 tree) (wanted : UInt8) :
    tree.childPosition? wanted = none := by
  rw [childPosition?, shaped.2, shaped.1]
  rfl

/-- A byte is found at the place of the child that has it. -/
theorem childPosition?_eq_some_iff (shaped : Shaped wideAbove remaining tree) {wanted : UInt8}
    {position : Nat} :
    tree.childPosition? wanted = some position ↔
      ∃ child, tree.children[position]? = some child ∧ child.byte = wanted := by
  cases remaining with
  | zero => simp [shaped.childPosition?_leaf, shaped.1]
  | succ remaining =>
    have distinct := shaped.nodup_bytes
    rw [shaped.childPosition?_eq]
    constructor
    · intro found
      split at found
      case isFalse => cases found
      case isTrue member =>
        cases found
        have inside := List.idxOf_lt_length_of_mem member
        have value := List.getElem_idxOf inside
        rw [List.getElem_map] at value
        rw [List.length_map] at inside
        exact ⟨_, List.getElem?_eq_getElem inside, value⟩
    · rintro ⟨child, place, rfl⟩
      rcases List.getElem?_eq_some_iff.1 place with ⟨inside, rfl⟩
      have first := distinct.idxOf_getElem position (by rwa [List.length_map])
      rw [List.getElem_map] at first
      rw [if_pos (List.mem_map_of_mem (List.getElem_mem inside)), first]

/-- A step leads to the child with the byte. -/
theorem step?_eq_some_iff (shaped : Shaped wideAbove remaining tree) {wanted : UInt8}
    {child : ByteTree} :
    tree.step? wanted = some child ↔ child ∈ tree.children ∧ child.byte = wanted := by
  rw [step?, Option.bind_eq_some_iff]
  constructor
  · rintro ⟨position, found, place⟩
    rcases shaped.childPosition?_eq_some_iff.1 found with ⟨other, place', same⟩
    rw [place] at place'
    cases place'
    exact ⟨List.mem_of_getElem? place, same⟩
  · rintro ⟨member, same⟩
    rcases List.getElem?_of_mem member with ⟨position, place⟩
    exact ⟨position, shaped.childPosition?_eq_some_iff.2 ⟨child, place, same⟩, place⟩

theorem step?_leaf (shaped : Shaped wideAbove 0 tree) (wanted : UInt8) : tree.step? wanted = none := by
  rw [step?, shaped.childPosition?_leaf]
  rfl

theorem child (shaped : Shaped wideAbove (remaining + 1) tree) {child : ByteTree}
    (member : child ∈ tree.children) : Shaped wideAbove remaining child :=
  shaped.2.2.2 child member

theorem isLeaf_eq (shaped : Shaped wideAbove remaining tree) : tree.isLeaf = decide (remaining = 0) := by
  cases remaining with
  | zero => simp [isLeaf, shaped.1]
  | succ remaining => simp [isLeaf, shaped.1]

/-! ## Looking keys up -/

theorem entries_ne_nil (shaped : Shaped wideAbove remaining tree) : entries remaining tree ≠ [] := by
  induction remaining generalizing tree with
  | zero => exact List.cons_ne_nil _ _
  | succ remaining ih =>
    rcases List.exists_mem_of_ne_nil _ shaped.1 with ⟨child, member⟩
    rcases List.exists_mem_of_ne_nil _ (ih (shaped.child member)) with ⟨pair, below⟩
    exact List.ne_nil_of_mem (mem_entries_succ.2 ⟨child, member, pair, below, rfl⟩)

/-- The paths in a tree are the beginnings of its keys. -/
theorem node?_isSome_iff (shaped : Shaped wideAbove remaining tree) {path : Bytes} :
    (tree.node? path).isSome ↔ ∃ pair ∈ entries remaining tree, path <+: pair.1 := by
  induction path generalizing tree remaining with
  | nil =>
    rcases List.exists_mem_of_ne_nil _ shaped.entries_ne_nil with ⟨pair, member⟩
    exact iff_of_true rfl ⟨pair, member, List.nil_prefix⟩
  | cons first path ih =>
    rw [node?]
    cases remaining with
    | zero => simp [shaped.step?_leaf, entries]
    | succ remaining =>
      rw [Option.isSome_bind]
      constructor
      · intro found
        cases step : tree.step? first with
        | none => simp [step] at found
        | some child =>
          rcases shaped.step?_eq_some_iff.1 step with ⟨member, rfl⟩
          rw [step, Option.any_some] at found
          rcases (ih (shaped.child member)).1 found with ⟨pair, below, begins⟩
          exact ⟨_, mem_entries_succ.2 ⟨child, member, pair, below, rfl⟩,
            List.cons_prefix_cons.2 ⟨rfl, begins⟩⟩
      · rintro ⟨_, listed, begins⟩
        rcases mem_entries_succ.1 listed with ⟨child, member, pair, below, rfl⟩
        rcases List.cons_prefix_cons.1 begins with ⟨rfl, beginsBelow⟩
        rw [shaped.step?_eq_some_iff.2 ⟨member, rfl⟩, Option.any_some]
        exact (ih (shaped.child member)).2 ⟨pair, below, beginsBelow⟩

/-- A key has the number that is listed for it. -/
theorem get?_eq_some_iff (shaped : Shaped wideAbove remaining tree) {key : Bytes} {value : UInt32} :
    tree.get? key = some value ↔ (key, value) ∈ entries remaining tree := by
  induction key generalizing tree remaining with
  | nil =>
    rw [get?, leaf?, node?, Option.filter_some, shaped.isLeaf_eq]
    cases remaining with
    | zero => simp [entries, eq_comm]
    | succ remaining => simp [mem_entries_succ]
  | cons first key ih =>
    rw [get?, leaf?, node?]
    cases remaining with
    | zero => simp [shaped.step?_leaf, entries]
    | succ remaining =>
      constructor
      · intro found
        cases step : tree.step? first with
        | none => simp [step] at found
        | some child =>
          rcases shaped.step?_eq_some_iff.1 step with ⟨member, rfl⟩
          rw [step] at found
          exact mem_entries_succ.2
            ⟨child, member, (key, value), (ih (shaped.child member)).1 found, rfl⟩
      · intro listed
        rcases mem_entries_succ.1 listed with ⟨child, member, pair, below, eq⟩
        simp only [Prod.mk.injEq, List.cons.injEq] at eq
        rcases eq with ⟨⟨rfl, rfl⟩, rfl⟩
        rw [shaped.step?_eq_some_iff.2 ⟨member, rfl⟩]
        exact (ih (shaped.child member)).2 below

end Shaped

end ByteTree

end GramCensus
