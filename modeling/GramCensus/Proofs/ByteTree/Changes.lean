import GramCensus.Proofs.ByteTree.Shape
import Mathlib.Data.List.Nodup

/-!
# Changing numbers in a byte tree

Changing the number at a path that is in the tree changes it there and nowhere else
(`ByteTree.Shaped.adjustFrom_eq_ok`). A path that is not in the tree is refused with the place at which
it leaves the tree (`ByteTree.adjustFrom_eq_error`). Changing the numbers of all keys visits them in
their order (`ByteTree.Shaped.changeLeaves`). The tree keeps its shape, and its list of keys with it.
-/

namespace GramCensus

namespace ByteTree

/-- The number of the node at the end of a path, an inner node's too. -/
def valueAt? (tree : ByteTree) (path : Bytes) : Option UInt32 :=
  (tree.node? path).map value

/-- A path in two pieces is followed piece by piece. -/
theorem node?_append (tree : ByteTree) (path rest : Bytes) :
    tree.node? (path ++ rest) = (tree.node? path).bind fun node => node.node? rest := by
  induction path generalizing tree with
  | nil => rfl
  | cons byte path ih =>
    rw [List.cons_append, node?, node?, Option.bind_assoc]
    exact congrArg _ (funext fun child => ih child)

/-- Entries with another number for one key. -/
def changeAt (change : UInt32 → UInt32) (key : Bytes) (entries : List (Bytes × UInt32)) :
    List (Bytes × UInt32) :=
  entries.map fun pair => (pair.1, if pair.1 = key then change pair.2 else pair.2)

/-- Entries with other numbers, each depending on how many entries come before it. -/
def changeInOrder (change : Nat → UInt32 → UInt32) (before : Nat) (entries : List (Bytes × UInt32)) :
    List (Bytes × UInt32) :=
  (entries.zipIdx before).map fun place => (place.1.1, change place.2 place.1.2)

/-- A key without an entry changes nothing. -/
theorem changeAt_of_absent {key : Bytes} {entries : List (Bytes × UInt32)}
    (absent : ∀ value, (key, value) ∉ entries) (change : UInt32 → UInt32) :
    changeAt change key entries = entries := by
  conv_rhs => rw [← List.map_id entries]
  refine List.map_congr_left fun pair member => ?_
  rw [if_neg, id]
  rintro rfl
  exact absent pair.2 member

/-- Only the bytes of the children matter for a table. -/
theorem tableOf?_congr {wideAbove : Nat} {children others : List ByteTree}
    (same : others.map byte = children.map byte) :
    tableOf? wideAbove others = tableOf? wideAbove children := by
  have length_eq := congrArg List.length same
  rw [List.length_map, List.length_map] at length_eq
  rw [tableOf?, tableOf?, same, length_eq]

/-! ## Another child -/

/-- Children with another one in the place of the one with a byte. -/
def replaced (wanted : UInt8) (changed : ByteTree) (children : List ByteTree) : List ByteTree :=
  children.map fun child => if child.byte = wanted then changed else child

theorem map_byte_replaced {wanted : UInt8} {changed : ByteTree} (same : changed.byte = wanted)
    (children : List ByteTree) : (replaced wanted changed children).map byte = children.map byte := by
  rw [replaced, List.map_map]
  apply List.map_congr_left
  intro child _
  rw [Function.comp_apply]
  split
  case isTrue here => rw [same, here]
  case isFalse => rfl

namespace Shaped

variable {wideAbove remaining : Nat} {tree : ByteTree}

/-- The child for a byte is replaced where it is found; without one nothing is. -/
theorem setChild_eq (shaped : Shaped wideAbove (remaining + 1) tree) (wanted : UInt8)
    (changed : ByteTree) :
    tree.setChild wanted changed =
      .node tree.byte tree.value tree.table (replaced wanted changed tree.children) := by
  rcases tree with ⟨top, value, table, children⟩
  cases found : childPosition? (.node top value table children) wanted with
  | none =>
    simp only [ByteTree.setChild, found]
    have absent : ∀ child ∈ children, child.byte ≠ wanted := by
      intro child member same
      rcases List.getElem?_of_mem member with ⟨position, place⟩
      rw [shaped.childPosition?_eq_some_iff.2 ⟨child, place, same⟩] at found
      cases found
    have kept : replaced wanted changed children = children := by
      conv_rhs => rw [← List.map_id children]
      exact List.map_congr_left fun child member => if_neg (absent child member)
    exact congrArg _ kept.symm
  | some position =>
    simp only [ByteTree.setChild, found]
    rcases shaped.childPosition?_eq_some_iff.1 found with ⟨child, place, rfl⟩
    have here : children.set position changed = replaced child.byte changed children := by
      refine List.ext_getElem? fun i => ?_
      rw [List.getElem?_set, replaced, List.getElem?_map]
      by_cases same : position = i
      · subst same
        have place : children[position]? = some child := place
        rw [if_pos rfl, if_pos (List.getElem?_eq_some_iff.1 place).1, place, Option.map_some,
          if_pos rfl]
      · rw [if_neg same]
        cases other : children[i]? with
        | none => rfl
        | some sibling =>
          -- A sibling at another place has another byte.
          have differs : sibling.byte ≠ child.byte := by
            intro again
            have first := shaped.childPosition?_eq_some_iff.2 ⟨sibling, other, again⟩
            rw [found] at first
            exact same (Option.some.inj first)
          rw [Option.map_some, if_neg differs]
    exact congrArg _ here

/-- A tree with a changed child has the shape it had. -/
theorem setChild (shaped : Shaped wideAbove (remaining + 1) tree) {wanted : UInt8}
    {changed : ByteTree} (changedShaped : Shaped wideAbove remaining changed)
    (same : changed.byte = wanted) : Shaped wideAbove (remaining + 1) (tree.setChild wanted changed) := by
  rw [shaped.setChild_eq]
  rcases shaped with ⟨nonempty, table_eq, sorted, below⟩
  refine ⟨?_, ?_, ?_, ?_⟩
  · intro empty
    exact nonempty (List.map_eq_nil_iff.1 empty)
  · exact table_eq.trans (tableOf?_congr (map_byte_replaced same tree.children)).symm
  · exact (congrArg (List.Pairwise (· < ·)) (map_byte_replaced same tree.children)).mpr sorted
  · intro child member
    rcases List.mem_map.1 member with ⟨before, listed, rfl⟩
    split
    · exact changedShaped
    · exact below before listed

theorem step?_setChild (shaped : Shaped wideAbove (remaining + 1) tree) {child changed : ByteTree}
    (changedShaped : Shaped wideAbove remaining changed) (same : changed.byte = child.byte)
    (member : child ∈ tree.children) (wanted : UInt8) :
    (tree.setChild child.byte changed).step? wanted =
      if wanted = child.byte then some changed else tree.step? wanted := by
  have shapedAfter := shaped.setChild changedShaped same
  split
  case isTrue here =>
    subst here
    refine shapedAfter.step?_eq_some_iff.2 ⟨?_, same⟩
    rw [shaped.setChild_eq]
    exact List.mem_map.2 ⟨child, member, if_pos rfl⟩
  case isFalse there =>
    apply Option.ext
    intro found
    rw [shapedAfter.step?_eq_some_iff, shaped.step?_eq_some_iff, shaped.setChild_eq]
    refine and_congr_left fun has => ?_
    constructor
    · intro listed
      rcases List.mem_map.1 listed with ⟨before, beforeListed, eq⟩
      split at eq
      · rw [← eq, same] at has
        exact absurd has.symm there
      · rwa [← eq]
    · intro listed
      refine List.mem_map.2 ⟨found, listed, if_neg ?_⟩
      rw [has]
      exact there

/-- Only the keys below the changed child may have other numbers. -/
theorem entries_setChild (shaped : Shaped wideAbove (remaining + 1) tree) {child changed : ByteTree}
    (same : changed.byte = child.byte) (member : child ∈ tree.children)
    {change : UInt32 → UInt32} {key : Bytes}
    (below : entries remaining changed = changeAt change key (entries remaining child)) :
    entries (remaining + 1) (tree.setChild child.byte changed) =
      changeAt change (child.byte :: key) (entries (remaining + 1) tree) := by
  rw [shaped.setChild_eq, changeAt, entries, entries, entriesIn, entriesIn, List.map_flatMap, children,
    replaced, List.flatMap_map]
  apply List.flatMap_congr
  intro sibling listed
  rw [List.map_map]
  split
  case isTrue here =>
    -- No other child has this byte.
    obtain rfl := List.inj_on_of_nodup_map shaped.nodup_bytes listed member here
    rw [below, same, changeAt, List.map_map]
    apply List.map_congr_left
    intro pair _
    simp
  case isFalse there =>
    apply List.map_congr_left
    intro pair _
    simp [there]

/-! ## Changing the number at a path -/

/-- The number at a path that is in the tree is changed, and no other. -/
theorem adjustFrom_eq_ok (shaped : Shaped wideAbove remaining tree) {key : Bytes} {node : ByteTree}
    (found : tree.node? key = some node) (change : UInt32 → UInt32) (depth : Nat) :
    ∃ after, tree.adjustFrom change depth key = .ok after ∧ Shaped wideAbove remaining after ∧
      after.byte = tree.byte ∧
      (∀ path, after.valueAt? path =
        if path = key then some (change node.value) else tree.valueAt? path) ∧
      entries remaining after = changeAt change key (entries remaining tree) := by
  induction key generalizing tree remaining depth with
  | nil =>
    obtain rfl : tree = node := Option.some.inj found
    rcases tree with ⟨top, value, table, children⟩
    refine ⟨_, rfl, ?_, rfl, ?_, ?_⟩
    · cases remaining with
      | zero => exact shaped
      | succ remaining => exact shaped
    · intro path
      cases path with
      | nil => rfl
      | cons first path => rfl
    · cases remaining with
      | zero => rfl
      | succ remaining =>
        -- No key ends at an inner node.
        refine (changeAt_of_absent (fun value member => ?_) change).symm
        rcases mem_entries_succ.1 member with ⟨child, -, below, -, eq⟩
        cases eq
  | cons first key ih =>
    cases remaining with
    | zero => simp [node?, shaped.step?_leaf] at found
    | succ remaining =>
      rw [node?, Option.bind_eq_some_iff] at found
      rcases found with ⟨child, step, found⟩
      rcases shaped.step?_eq_some_iff.1 step with ⟨member, rfl⟩
      -- The change is made below the child, which then takes its old place.
      rcases ih (shaped.child member) found (depth + 1) with
        ⟨changed, adjusted, changedShaped, same, values, below⟩
      refine ⟨tree.setChild child.byte changed, ?_, shaped.setChild changedShaped same, ?_, ?_,
        shaped.entries_setChild same member below⟩
      · rw [adjustFrom, step]
        dsimp only
        rw [adjusted]
      · rw [shaped.setChild_eq]
        rfl
      · intro path
        cases path with
        | nil =>
          rw [shaped.setChild_eq]
          rfl
        | cons byte path =>
          rw [valueAt?, node?, shaped.step?_setChild changedShaped same member, valueAt?, node?]
          by_cases here : byte = child.byte
          · subst here
            rw [if_pos rfl, step, Option.bind_some, Option.bind_some, ← valueAt?, ← valueAt?, values]
            simp
          · rw [if_neg here, if_neg (by simp [here])]

end Shaped

/-- A path that is not in the tree is refused, with the first byte that leads out of the tree and how
many bytes of the path come before it. -/
theorem adjustFrom_eq_error {tree : ByteTree} {key : Bytes} (absent : tree.node? key = none) :
    ∃ shared byte rest, key = shared ++ byte :: rest ∧ (tree.node? shared).isSome ∧
      tree.node? (shared ++ [byte]) = none ∧
      ∀ change depth,
        tree.adjustFrom change depth key = .error (.missingChild (depth + shared.length) byte) := by
  induction key generalizing tree with
  | nil => cases absent
  | cons first key ih =>
    rw [node?] at absent
    cases step : tree.step? first with
    | none =>
      refine ⟨[], first, key, rfl, rfl, ?_, fun change depth => ?_⟩
      · rw [List.nil_append, node?, step]
        rfl
      · rw [adjustFrom, step]
        rfl
    | some child =>
      rw [step, Option.bind_some] at absent
      rcases ih absent with ⟨shared, byte, rest, rfl, starts, leaves, refused⟩
      refine ⟨first :: shared, byte, rest, rfl, ?_, ?_, fun change depth => ?_⟩
      · rwa [node?, step, Option.bind_some]
      · rwa [List.cons_append, node?, step, Option.bind_some]
      · rw [adjustFrom, step]
        dsimp only
        rw [refused change (depth + 1), List.length_cons, Nat.add_assoc, Nat.add_comm 1]

/-! ## Changing all numbers -/

/-- What changing the numbers of all leaves does to a tree: they are changed in their order. -/
structure ChangesLeaves (wideAbove remaining : Nat) (change : Nat → UInt32 → UInt32) (visited : Nat)
    (tree : ByteTree) (result : ByteTree × Nat) : Prop where
  shaped : Shaped wideAbove remaining result.1
  byte_eq : result.1.byte = tree.byte
  entries_eq : entries remaining result.1 = changeInOrder change visited (entries remaining tree)
  visited_eq : result.2 = visited + (entries remaining tree).length

/-- The same for siblings, one after the other. -/
theorem changeLeavesIn_eq {wideAbove remaining : Nat} {change : Nat → UInt32 → UInt32}
    {trees : List ByteTree} (each : ∀ tree ∈ trees, ∀ visited,
      ChangesLeaves wideAbove remaining change visited tree (changeLeaves change visited tree))
    (visited : Nat) :
    (changeLeavesIn change visited trees).1.map byte = trees.map byte ∧
      (∀ tree ∈ (changeLeavesIn change visited trees).1, Shaped wideAbove remaining tree) ∧
      entriesIn (entries remaining) (changeLeavesIn change visited trees).1 =
        changeInOrder change visited (entriesIn (entries remaining) trees) ∧
      (changeLeavesIn change visited trees).2 =
        visited + (entriesIn (entries remaining) trees).length := by
  induction trees generalizing visited with
  | nil => exact ⟨rfl, by simp [changeLeavesIn], rfl, rfl⟩
  | cons tree trees ih =>
    rcases List.forall_mem_cons.1 each with ⟨first, others⟩
    have first := first visited
    obtain ⟨bytes, shaped, listed, counted⟩ := ih others (changeLeaves change visited tree).2
    rw [changeLeavesIn]
    refine ⟨?_, ?_, ?_, ?_⟩
    · rw [List.map_cons, List.map_cons, first.byte_eq, bytes]
    · exact List.forall_mem_cons.2 ⟨first.shaped, shaped⟩
    · rw [entriesIn_cons, entriesIn_cons, listed, changeInOrder, changeInOrder, List.zipIdx_append,
        List.map_append, first.visited_eq, List.length_map, first.byte_eq, first.entries_eq,
        changeInOrder]
      congr 1
      rw [List.zipIdx_map, List.map_map, List.map_map]
      rfl
    · rw [counted, first.visited_eq, entriesIn_cons, List.length_append, List.length_map, Nat.add_assoc]

/-- Changing the numbers of all leaves visits them in their order. -/
theorem Shaped.changeLeaves {wideAbove remaining : Nat} {tree : ByteTree}
    (shaped : Shaped wideAbove remaining tree) (change : Nat → UInt32 → UInt32) (visited : Nat) :
    ChangesLeaves wideAbove remaining change visited tree (changeLeaves change visited tree) := by
  induction remaining generalizing tree visited with
  | zero =>
    rcases tree with ⟨top, value, table, children⟩
    obtain rfl : children = [] := shaped.1
    exact ⟨shaped, rfl, rfl, rfl⟩
  | succ remaining ih =>
    rcases tree with ⟨top, value, table, children⟩
    have nonempty : ¬ children.isEmpty = true := by
      rw [List.isEmpty_iff]
      exact shaped.1
    obtain ⟨bytes, shapedBelow, listed, counted⟩ := changeLeavesIn_eq
      (fun child member visited => ih (shaped.child member) visited) visited
    rw [ByteTree.changeLeaves, if_neg nonempty]
    refine ⟨⟨?_, ?_, ?_, shapedBelow⟩, rfl, listed, counted⟩
    · intro empty
      have none : children.map byte = [] := bytes.symm.trans (congrArg _ empty)
      exact shaped.1 (List.map_eq_nil_iff.1 none)
    · exact shaped.2.1.trans (tableOf?_congr bytes).symm
    · exact (congrArg (List.Pairwise (· < ·)) bytes).mpr shaped.2.2.1

end ByteTree

end GramCensus
