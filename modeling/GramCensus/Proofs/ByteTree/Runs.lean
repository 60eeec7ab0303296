import GramCensus.Proofs.ByteTree.Changes
import GramCensus.Proofs.ByteTree.Grow
import GramCensus.Proofs.ByteTree.Listing

/-!
# A byte tree as a map

A tree is changed by calls of several kinds (`TreeCall`). On the list of keys with their numbers each
of them does what it would do on a map (`TreeCall.onEntries`), and the tree keeps its shape
(`ByteTree.Shaped.perform`). So whatever calls follow each other, a tree that was built stays a map on
the keys it was built from (`ByteTree.run_maps`).
-/

namespace GramCensus

/-- A call that may change numbers in a tree. -/
inductive TreeCall where
  | set (key : Bytes) (value : UInt32)
  | increment (key : Bytes)
  | setLeaf (key : Bytes) (value : UInt32)
  | setNode (path : Bytes) (value : UInt32)
  | changeValues (change : Nat → UInt32 → UInt32)

namespace TreeCall

/-- The path that a call follows; a change of all numbers follows none. -/
def path? : TreeCall → Option Bytes
  | .set key _ | .increment key | .setLeaf key _ | .setNode key _ => some key
  | .changeValues _ => none

/-- What a call does to a map that is listed as its entries. A key without an entry changes nothing. -/
def onEntries (entries : List (Bytes × UInt32)) : TreeCall → List (Bytes × UInt32)
  | .set key value | .setLeaf key value | .setNode key value =>
    ByteTree.changeAt (fun _ => value) key entries
  | .increment key => ByteTree.changeAt (· + 1) key entries
  | .changeValues change => ByteTree.changeInOrder change 0 entries

/-- A call that follows a path changes the number at that path. -/
theorem onEntries_eq {call : TreeCall} {path : Bytes} (follows : call.path? = some path) :
    ∃ change, ∀ entries, call.onEntries entries = ByteTree.changeAt change path entries := by
  cases call with
  | set key value | setLeaf key value | setNode key value =>
    cases follows
    exact ⟨fun _ => value, fun _ => rfl⟩
  | increment key =>
    cases follows
    exact ⟨(· + 1), fun _ => rfl⟩
  | changeValues change => cases follows

/-- No call changes the keys. -/
theorem map_fst_onEntries (call : TreeCall) (entries : List (Bytes × UInt32)) :
    (call.onEntries entries).map (·.1) = entries.map (·.1) := by
  cases follows : call.path? with
  | some path =>
    rcases onEntries_eq follows with ⟨change, changed⟩
    rw [changed, ByteTree.changeAt, List.map_map]
    rfl
  | none =>
    cases call with
    | changeValues change =>
      rw [onEntries, ByteTree.changeInOrder, List.map_map]
      conv_rhs => rw [← List.zipIdx_map_fst 0 entries, List.map_map]
      rfl
    | _ => cases follows

theorem onEntries_of_absent {call : TreeCall} {path : Bytes} (follows : call.path? = some path)
    {entries : List (Bytes × UInt32)} (absent : ∀ number, (path, number) ∉ entries) :
    call.onEntries entries = entries := by
  rcases onEntries_eq follows with ⟨change, changed⟩
  rw [changed]
  exact ByteTree.changeAt_of_absent absent change

end TreeCall

namespace ByteTree

/-- Makes a call. A call that fails, or finds no node, leaves the tree as it is. -/
def perform (tree : ByteTree) : TreeCall → ByteTree
  | .set key value => (tree.set key value).toOption.getD tree
  | .increment key => ((tree.increment key).map (·.1)).toOption.getD tree
  | .setLeaf key value => (tree.setLeaf? key value).getD tree
  | .setNode path value => (tree.setNode? path value).getD tree
  | .changeValues change => tree.changeValues change

def run (tree : ByteTree) (calls : List TreeCall) : ByteTree :=
  calls.foldl perform tree

theorem increment_eq_ok {tree after : ByteTree} {key : Bytes} {value : UInt32}
    (adjusted : tree.adjust (· + 1) key = .ok after) (here : after.valueAt? key = some value) :
    tree.increment key = .ok (after, value) := by
  rw [increment, adjusted, Except.map, ← valueAt?, here]
  rfl

theorem increment_eq_error {tree : ByteTree} {key : Bytes} {failure : Failure}
    (refused : tree.adjust (· + 1) key = .error failure) : tree.increment key = .error failure := by
  rw [increment, refused]
  rfl

theorem perform_increment (tree : ByteTree) (key : Bytes) :
    tree.perform (.increment key) = (tree.adjust (· + 1) key).toOption.getD tree := by
  rw [perform, increment]
  cases tree.adjust (· + 1) key <;> rfl

/-- A path that leaves the tree changes nothing. -/
theorem perform_of_absent {tree : ByteTree} {call : TreeCall} {path : Bytes}
    (follows : call.path? = some path) (absent : tree.node? path = none) :
    tree.perform call = tree := by
  rcases adjustFrom_eq_error absent with ⟨shared, byte, -, -, -, -, refused⟩
  have kept : ∀ change, (tree.adjust change path).toOption.getD tree = tree := fun change => by
    rw [adjust, refused change 0]
    rfl
  cases call with
  | set key value | setNode key value =>
    cases follows
    exact kept fun _ => value
  | increment key =>
    cases follows
    rw [perform_increment, kept]
  | setLeaf key value =>
    cases follows
    rw [perform, setLeaf?, leaf?, absent]
    rfl
  | changeValues change => cases follows

theorem exists_node?_of_get? {tree : ByteTree} {key : Bytes} {number : UInt32}
    (found : tree.get? key = some number) : ∃ node, tree.node? key = some node ∧ node.value = number := by
  rcases Option.map_eq_some_iff.1 found with ⟨node, leaf, rfl⟩
  exact ⟨node, (Option.filter_eq_some_iff.1 leaf).1, rfl⟩

theorem length_of_mem_entries {remaining : Nat} {tree : ByteTree} {pair : Bytes × UInt32}
    (member : pair ∈ entries remaining tree) : pair.1.length = remaining := by
  induction remaining generalizing tree pair with
  | zero =>
    rw [List.mem_singleton.1 member]
    rfl
  | succ remaining ih =>
    rcases mem_entries_succ.1 member with ⟨child, -, below, listed, rfl⟩
    rw [List.length_cons, ih listed]

namespace Shaped

variable {wideAbove remaining : Nat} {tree : ByteTree}

/-! ## What one call does -/

/-- A path that ends in no leaf has no entry. -/
theorem notMem_entries (shaped : Shaped wideAbove remaining tree) {path : Bytes}
    (absent : tree.leaf? path = none) (number : UInt32) : (path, number) ∉ entries remaining tree := by
  intro member
  rw [← shaped.get?_eq_some_iff, get?, absent] at member
  cases member

/-- Changing the number at a path, where the path is in the tree, changes its entry. -/
theorem getD_adjust (shaped : Shaped wideAbove remaining tree) (change : UInt32 → UInt32)
    (path : Bytes) :
    Shaped wideAbove remaining ((tree.adjust change path).toOption.getD tree) ∧
      entries remaining ((tree.adjust change path).toOption.getD tree) =
        changeAt change path (entries remaining tree) := by
  cases found : tree.node? path with
  | none =>
    rcases adjustFrom_eq_error found with ⟨_, _, _, -, -, -, refused⟩
    rw [adjust, refused change 0, changeAt_of_absent (shaped.notMem_entries (by rw [leaf?, found]; rfl))]
    exact ⟨shaped, rfl⟩
  | some node =>
    rcases shaped.adjustFrom_eq_ok found change 0 with ⟨after, adjusted, shapedAfter, -, -, changed⟩
    rw [adjust, adjusted]
    exact ⟨shapedAfter, changed⟩

/-- A tree keeps its shape through a call that follows a path, and its entries change as those of a
map do. -/
theorem perform_of_path (shaped : Shaped wideAbove remaining tree) {call : TreeCall} {path : Bytes}
    (follows : call.path? = some path) :
    Shaped wideAbove remaining (tree.perform call) ∧
      entries remaining (tree.perform call) = call.onEntries (entries remaining tree) := by
  cases call with
  | set key value | setNode key value => exact shaped.getD_adjust _ key
  | increment key =>
    rw [perform_increment]
    exact shaped.getD_adjust _ key
  | setLeaf key value =>
    rw [ByteTree.perform, setLeaf?]
    cases leaf : tree.leaf? key with
    | none => exact ⟨shaped, (TreeCall.onEntries_of_absent rfl (shaped.notMem_entries leaf)).symm⟩
    | some node => exact shaped.getD_adjust _ key
  | changeValues change => cases follows

/-- The same for every call, where the root is not itself a leaf. -/
theorem perform (shaped : Shaped wideAbove (remaining + 1) tree) (call : TreeCall) :
    Shaped wideAbove (remaining + 1) (tree.perform call) ∧
      entries (remaining + 1) (tree.perform call) = call.onEntries (entries (remaining + 1) tree) := by
  cases call with
  | changeValues change =>
    have same : tree.changeValues change = (ByteTree.changeLeaves change 0 tree).1 := by
      rcases tree with ⟨byte, value, table, children⟩
      have inner : ¬ children.isEmpty = true := fun none => shaped.1 (List.isEmpty_iff.1 none)
      rw [changeValues, ByteTree.changeLeaves, if_neg inner]
    have changes := shaped.changeLeaves change 0
    rw [ByteTree.perform, same]
    exact ⟨changes.shaped, changes.entries_eq⟩
  | _ => exact shaped.perform_of_path rfl

/-- What one call does to the entries, calls do one after the other. -/
theorem run (shaped : Shaped wideAbove (remaining + 1) tree) (calls : List TreeCall) :
    Shaped wideAbove (remaining + 1) (tree.run calls) ∧
      entries (remaining + 1) (tree.run calls) =
        calls.foldl TreeCall.onEntries (entries (remaining + 1) tree) := by
  induction calls generalizing tree with
  | nil => exact ⟨shaped, rfl⟩
  | cons call calls ih =>
    rcases shaped.perform call with ⟨shapedAfter, changed⟩
    rw [List.foldl_cons, ← changed]
    exact ih shapedAfter

/-- A tree that is a leaf stays one: a change of all numbers leaves it as it is. -/
theorem perform_leaf (shaped : Shaped wideAbove 0 tree) (call : TreeCall) :
    Shaped wideAbove 0 (tree.perform call) := by
  cases call with
  | changeValues change =>
    rcases tree with ⟨byte, value, table, children⟩
    obtain rfl : children = [] := shaped.1
    exact shaped
  | _ => exact (shaped.perform_of_path rfl).1

theorem run_leaf (shaped : Shaped wideAbove 0 tree) (calls : List TreeCall) :
    Shaped wideAbove 0 (tree.run calls) := by
  induction calls generalizing tree with
  | nil => exact shaped
  | cons call calls ih => exact ih (shaped.perform_leaf call)

end Shaped

theorem map_fst_foldl_onEntries (calls : List TreeCall) (entries : List (Bytes × UInt32)) :
    (calls.foldl TreeCall.onEntries entries).map (·.1) = entries.map (·.1) := by
  induction calls generalizing entries with
  | nil => rfl
  | cons call calls ih => rw [List.foldl_cons, ih, call.map_fst_onEntries]

/-! ## The map -/

/-- A tree is a map on some keys, which holds `entries`. -/
structure Maps (keys : List Bytes) (entries : List (Bytes × UInt32)) (tree : ByteTree) : Prop where
  /-- The listings show the entries: each key once, ascending. -/
  toList_eq : tree.toList = entries
  keys_eq : tree.keys = entries.map (·.1)
  values_eq : tree.values = entries.map (·.2)
  ascending : (entries.map (·.1)).Pairwise (· < ·)
  mem_keys_iff : ∀ key, key ∈ entries.map (·.1) ↔ key ∈ keys
  /-- The paths in the tree are the beginnings of the keys. -/
  node?_iff : ∀ path, (tree.node? path).isSome ↔ ∃ key ∈ keys, path <+: key
  get?_iff : ∀ key number, tree.get? key = some number ↔ (key, number) ∈ entries
  /-- At a key the number can be set, and no other number changes, an inner node's neither. -/
  set_key : ∀ key ∈ keys, ∀ number, ∃ after, tree.set key number = .ok after ∧
    ∀ path, after.valueAt? path = if path = key then some number else tree.valueAt? path
  increment_key : ∀ key ∈ keys, ∃ number after, tree.get? key = some number ∧
    tree.increment key = .ok (after, number + 1) ∧
      ∀ path, after.valueAt? path = if path = key then some (number + 1) else tree.valueAt? path
  /-- A path that leaves the tree is refused where it does: behind the longest of its beginnings that
  are in the tree. -/
  refused : ∀ path, tree.node? path = none →
    ∃ shared byte rest, path = shared ++ byte :: rest ∧ (tree.node? shared).isSome ∧
      (∀ start, start <+: path → (tree.node? start).isSome → start.length ≤ shared.length) ∧
      (∀ number, tree.set path number = .error (.missingChild shared.length byte)) ∧
      tree.increment path = .error (.missingChild shared.length byte) ∧
      ∀ call, call.path? = some path → tree.perform call = tree
  /-- A path that ends before a key changes the number of no key. -/
  inner : ∀ path key, key ∈ keys → path <+: key → path ≠ key →
    ∀ call, call.path? = some path → ∀ other, (tree.perform call).get? other = tree.get? other

/-- A path that leaves the tree does so behind the longest of its beginnings that are in the tree. -/
theorem length_le_of_leaves {tree : ByteTree} {shared : Bytes} {byte : UInt8} {rest start : Bytes}
    (leaves : tree.node? (shared ++ [byte]) = none) (begins : start <+: shared ++ byte :: rest)
    (starts : (tree.node? start).isSome) : start.length ≤ shared.length := by
  by_contra longer
  have behind : shared ++ [byte] <+: start := by
    refine List.prefix_of_prefix_length_le ?_ begins ?_
    · exact (List.prefix_append_right_inj shared).2 (List.cons_prefix_cons.2 ⟨rfl, List.nil_prefix⟩)
    · rw [List.length_append, List.length_singleton]
      omega
  rcases behind with ⟨more, rfl⟩
  rw [node?_append, leaves] at starts
  cases starts

/-- A tree with the shape of one is a map on its keys. -/
theorem Shaped.maps {wideAbove remaining : Nat} {tree : ByteTree} {keys : List Bytes}
    (shaped : Shaped wideAbove (remaining + 1) tree)
    (holds : ∀ key, key ∈ (entries (remaining + 1) tree).map (·.1) ↔ key ∈ keys) :
    Maps keys (entries (remaining + 1) tree) tree := by
  have listed := shaped.toList_eq
  have stored : ∀ key ∈ keys, ∃ number, tree.get? key = some number := by
    intro key member
    rcases List.mem_map.1 ((holds key).2 member) with ⟨pair, inEntries, rfl⟩
    exact ⟨pair.2, shaped.get?_eq_some_iff.2 inEntries⟩
  have paths : ∀ path, (tree.node? path).isSome ↔ ∃ key ∈ keys, path <+: key := by
    intro path
    simp only [← holds, shaped.node?_isSome_iff, List.mem_map, exists_exists_and_eq_and]
  refine ⟨listed, by rw [ByteTree.keys, listed], by rw [values, listed], ?ascending, holds, paths,
    fun key number => shaped.get?_eq_some_iff, ?set_key, ?increment_key, ?refused, ?inner⟩
  case ascending => exact List.pairwise_map.2 shaped.pairwise_entries
  case set_key =>
    intro key member number
    rcases stored key member with ⟨before, found⟩
    rcases exists_node?_of_get? found with ⟨node, reached, -⟩
    rcases shaped.adjustFrom_eq_ok reached (fun _ => number) 0 with ⟨after, adjusted, -, -, changed, -⟩
    exact ⟨after, adjusted, changed⟩
  case increment_key =>
    intro key member
    rcases stored key member with ⟨number, found⟩
    rcases exists_node?_of_get? found with ⟨node, reached, rfl⟩
    rcases shaped.adjustFrom_eq_ok reached (· + 1) 0 with ⟨after, adjusted, -, -, changed, -⟩
    exact ⟨node.value, after, found, increment_eq_ok adjusted (by rw [changed, if_pos rfl]), changed⟩
  case refused =>
    intro path absent
    rcases adjustFrom_eq_error absent with ⟨shared, byte, rest, rfl, starts, leaves, refused⟩
    have depth := Nat.zero_add shared.length
    refine ⟨shared, byte, rest, rfl, starts, fun start => length_le_of_leaves leaves, fun number => ?_,
      ?_, fun call follows => perform_of_absent follows absent⟩
    · rw [set, adjust, refused, depth]
    · rw [increment_eq_error (refused (· + 1) 0), depth]
  case inner =>
    intro path key member begins proper call follows other
    -- The path is no key itself, as all keys are equally long.
    have absent : ∀ number, (path, number) ∉ entries (remaining + 1) tree := by
      intro number inEntries
      rcases List.mem_map.1 ((holds key).2 member) with ⟨pair, inEntries', rfl⟩
      refine proper (begins.eq_of_length ?_)
      rw [length_of_mem_entries inEntries']
      exact length_of_mem_entries inEntries
    rcases shaped.perform call with ⟨shapedAfter, changed⟩
    rw [TreeCall.onEntries_of_absent follows absent] at changed
    apply Option.ext
    intro number
    rw [shapedAfter.get?_eq_some_iff, shaped.get?_eq_some_iff, changed]

/-- Whatever calls follow each other on a tree that was built from at least one n-gram: the tree is a
map on the keys it was built from, and holds what a map would hold. -/
theorem run_maps {plan : TreePlan} {grams : Bytes} {length : Nat} {tree : ByteTree}
    (built : build plan grams length = .ok tree) (nonempty : grams ≠ []) (calls : List TreeCall) :
    Maps (keysOf plan grams length) (calls.foldl TreeCall.onEntries tree.toList) (tree.run calls) := by
  rcases shaped_of_build built nonempty with ⟨remaining, shaped, holds⟩
  rcases shaped.run calls with ⟨shapedAfter, changed⟩
  rw [shaped.toList_eq, ← changed]
  refine shapedAfter.maps fun key => ?_
  rw [changed, map_fst_foldl_onEntries]
  exact holds key

/-- Two n-grams with one first byte, in a tree whose inner node has a table and whose root has none. -/
theorem run_maps_of_shared_byte :
    ∃ tree, build ⟨1, 5, 1⟩ [0, 7, 3, 0, 7, 1] 3 = .ok tree ∧
      ∀ calls : List TreeCall,
        Maps [[7, 3], [7, 1]] (calls.foldl TreeCall.onEntries tree.toList) (tree.run calls) := by
  have succeeds : (build ⟨1, 5, 1⟩ [0, 7, 3, 0, 7, 1] 3).isOk := by decide +kernel
  rcases exists_of_isOk succeeds with ⟨tree, built⟩
  exact ⟨tree, built, run_maps built (List.cons_ne_nil _ _)⟩

end ByteTree

end GramCensus
