import GramCensus.Proofs.ByteTree.Flat

/-!
# Which numbers can be set

Setting the number at a path only asks for a node at its end, while looking it up asks for a leaf. So on
paths that do not end inside a tree, a change is accepted exactly where a lookup finds a number, and the
lookup then finds the changed one (`ByteTree.SetsVisibly`). On a proper beginning of a key it is accepted
although no lookup finds anything, before or after it (`ByteTree.SetsSilently`). These are all paths
(`ByteTree.run_sets_numbers`).
-/

namespace GramCensus

/-! ## Accepted changes -/

/-- A change is accepted exactly where a lookup finds a number, and the lookup then finds the changed
number. -/
structure Visible {α : Type} (change : UInt32 → UInt32) (before : Option UInt32)
    (result : Except Failure α) (lookup : α → Option UInt32) : Prop where
  accepted_iff : (∃ after, result = .ok after) ↔ before.isSome
  shown : ∀ after, result = .ok after → ∀ number, before = some number →
    lookup after = some (change number)

/-- A change is accepted although a lookup finds nothing, before it and after it. -/
structure Silent {α : Type} (before : Option UInt32) (result : Except Failure α)
    (lookup : α → Option UInt32) : Prop where
  unfound : before = none
  accepted : ∃ after, result = .ok after ∧ lookup after = none

section Image

variable {α β : Type} {change : UInt32 → UInt32} {before : Option UInt32} {result : Except Failure α}
  {lookup : α → Option UInt32} {f : α → β} {lookup' : β → Option UInt32}

theorem exists_map_eq_ok : (∃ after, result.map f = .ok after) ↔ ∃ after, result = .ok after := by
  cases result with
  | error failure => exact iff_of_false nofun nofun
  | ok after => exact iff_of_true ⟨f after, rfl⟩ ⟨after, rfl⟩

theorem Visible.map (visible : Visible change before result lookup)
    (same : ∀ after, result = .ok after → lookup' (f after) = lookup after) :
    Visible change before (result.map f) lookup' where
  accepted_iff := exists_map_eq_ok.trans visible.accepted_iff
  shown after accepted number found := by
    rcases exists_map_eq_ok.1 ⟨after, accepted⟩ with ⟨first, rfl⟩
    cases accepted
    rw [same first rfl]
    exact visible.shown first rfl number found

theorem Silent.map (silent : Silent before result lookup)
    (same : ∀ after, result = .ok after → lookup' (f after) = lookup after) :
    Silent before (result.map f) lookup' where
  unfound := silent.unfound
  accepted := by
    rcases silent.accepted with ⟨after, rfl, unfound⟩
    exact ⟨f after, rfl, (same after rfl).trans unfound⟩

end Image

namespace ByteTree

/-! ## Changing the number at a path -/

theorem mem_changeAt {change : UInt32 → UInt32} {key : Bytes} {entries : List (Bytes × UInt32)}
    {number : UInt32} :
    (key, number) ∈ changeAt change key entries ↔ ∃ before, (key, before) ∈ entries ∧
      change before = number := by
  rw [changeAt, List.mem_map]
  constructor
  · rintro ⟨⟨other, before⟩, member, eq⟩
    obtain ⟨rfl, changed⟩ := Prod.mk.inj eq
    rw [if_pos rfl] at changed
    exact ⟨before, member, changed⟩
  · rintro ⟨before, member, rfl⟩
    exact ⟨(key, before), member, by rw [if_pos rfl]⟩

section Changes

variable {wideAbove remaining : Nat} {tree : ByteTree} {path : Bytes} {change : UInt32 → UInt32}

theorem Shaped.exists_adjust_iff (shaped : Shaped wideAbove remaining tree) :
    (∃ after, tree.adjust change path = .ok after) ↔ (tree.node? path).isSome := by
  cases found : tree.node? path with
  | none =>
    rcases adjustFrom_eq_error found with ⟨_, _, _, -, -, -, refused⟩
    refine iff_of_false ?_ nofun
    rintro ⟨after, adjusted⟩
    rw [adjust, refused] at adjusted
    cases adjusted
  | some node =>
    rcases shaped.adjustFrom_eq_ok found change 0 with ⟨after, adjusted, -⟩
    exact iff_of_true ⟨after, adjusted⟩ rfl

/-- A lookup finds the changed number, if it found a number before the change. -/
theorem Shaped.get?_adjust (shaped : Shaped wideAbove remaining tree) {after : ByteTree}
    (adjusted : tree.adjust change path = .ok after) :
    Shaped wideAbove remaining after ∧ after.get? path = (tree.get? path).map change := by
  rcases shaped.getD_adjust change path with ⟨shapedAfter, changed⟩
  rw [adjusted] at shapedAfter changed
  change Shaped wideAbove remaining after at shapedAfter
  change entries remaining after = _ at changed
  refine ⟨shapedAfter, Option.ext fun number => ?_⟩
  rw [shapedAfter.get?_eq_some_iff, changed, mem_changeAt, Option.map_eq_some_iff]
  simp only [shaped.get?_eq_some_iff]

theorem Shaped.visible_adjust (shaped : Shaped wideAbove remaining tree)
    (found : (tree.node? path).isSome ↔ (tree.get? path).isSome) :
    Visible change (tree.get? path) (tree.adjust change path) (·.get? path) where
  accepted_iff := shaped.exists_adjust_iff.trans found
  shown after accepted number before := by rw [(shaped.get?_adjust accepted).2, before, Option.map_some]

theorem Shaped.silent_adjust (shaped : Shaped wideAbove remaining tree)
    (reached : (tree.node? path).isSome) (unfound : tree.get? path = none) :
    Silent (tree.get? path) (tree.adjust change path) (·.get? path) where
  unfound := unfound
  accepted := by
    rcases shaped.exists_adjust_iff.2 reached with ⟨after, accepted⟩
    exact ⟨after, accepted, by rw [(shaped.get?_adjust accepted).2, unfound, Option.map_none]⟩

end Changes

/-! ## Setting and adding one -/

/-- Setting the number of a key in a tree, adding one to it, and setting it in the flat form of the tree:
each is accepted exactly where a lookup finds the key, and the lookup then finds the new number. -/
structure SetsVisibly (tree : ByteTree) (key : Bytes) (number : UInt32) : Prop where
  set : Visible (fun _ => number) (tree.get? key) (tree.set key number) (·.get? key)
  increment : Visible (· + 1) (tree.get? key) (tree.increment key) (·.1.get? key)
  /-- Adding one returns the new number. -/
  returned : ∀ after value, tree.increment key = .ok (after, value) → after.get? key = some value
  flat : Visible (fun _ => number) ((FlatTree.ofTree tree).search key)
    ((FlatTree.ofTree tree).set key number) (·.search key)

/-- The same changes where all of them are accepted although lookups find nothing. Setting changes the number
of an inner node. -/
structure SetsSilently (tree : ByteTree) (key : Bytes) (number : UInt32) : Prop where
  set : Silent (tree.get? key) (tree.set key number) (·.get? key)
  increment : Silent (tree.get? key) (tree.increment key) (·.1.get? key)
  flat : Silent ((FlatTree.ofTree tree).search key) ((FlatTree.ofTree tree).set key number) (·.search key)
  changed : ∃ after, tree.set key number = .ok after ∧ after.valueAt? key = some number

section Sets

variable {wideAbove remaining : Nat} {tree : ByteTree} {key : Bytes}

/-- The flat form of a tree in which a number was changed finds what the tree finds. -/
theorem Shaped.search_ofTree_adjust (shaped : Shaped wideAbove remaining tree)
    {change : UInt32 → UInt32} (after : ByteTree) (adjusted : tree.adjust change key = .ok after) :
    (FlatTree.ofTree after).search key = after.get? key :=
  FlatTree.search_eq (shaped.get?_adjust adjusted).1 key

theorem Shaped.setsVisibly (shaped : Shaped wideAbove remaining tree)
    (found : (tree.node? key).isSome ↔ (tree.get? key).isSome) (number : UInt32) :
    SetsVisibly tree key number where
  set := shaped.visible_adjust found
  increment := (shaped.visible_adjust found).map fun _ _ => rfl
  returned after value accepted := by
    have visible := @visible_adjust _ _ _ _ (· + 1) shaped found
    cases adjusted : tree.adjust (· + 1) key with
    | error failure =>
      rw [increment_eq_error adjusted] at accepted
      cases accepted
    | ok changed =>
      rcases Option.isSome_iff_exists.1 (visible.accepted_iff.1 ⟨changed, adjusted⟩) with
        ⟨number, before⟩
      have shown := visible.shown changed adjusted number before
      rcases exists_node?_of_get? shown with ⟨node, reached, value_eq⟩
      have here : changed.valueAt? key = some (number + 1) := by
        rw [valueAt?, reached, Option.map_some, value_eq]
      rw [increment_eq_ok adjusted here] at accepted
      cases accepted
      exact shown
  flat := by
    rw [FlatTree.search_eq shaped, FlatTree.set_eq shaped]
    exact (shaped.visible_adjust found).map shaped.search_ofTree_adjust

theorem Shaped.setsSilently (shaped : Shaped wideAbove remaining tree)
    (reached : (tree.node? key).isSome) (unfound : tree.get? key = none) (number : UInt32) :
    SetsSilently tree key number where
  set := shaped.silent_adjust reached unfound
  increment := (shaped.silent_adjust reached unfound).map fun _ _ => rfl
  flat := by
    rw [FlatTree.search_eq shaped, FlatTree.set_eq shaped]
    exact (shaped.silent_adjust reached unfound).map shaped.search_ofTree_adjust
  changed := by
    rcases Option.isSome_iff_exists.1 reached with ⟨node, reached⟩
    rcases shaped.adjustFrom_eq_ok reached (fun _ => number) 0 with ⟨after, adjusted, -, -, changed, -⟩
    exact ⟨after, adjusted, by rw [changed, if_pos rfl]⟩

end Sets

/-- Whatever calls follow each other on a tree that was built from at least one n-gram: a number can be
set, visibly, exactly where a lookup finds one, except on the proper beginnings of keys. There a change
is accepted too, although no lookup ever finds the number. -/
theorem run_sets_numbers {plan : TreePlan} {grams : Bytes} {length : Nat} {tree : ByteTree}
    (built : build plan grams length = .ok tree) (nonempty : grams ≠ []) (calls : List TreeCall)
    (path : Bytes) (number : UInt32) :
    ((∃ key ∈ keysOf plan grams length, path <+: key ∧ path ≠ key) →
        SetsSilently (tree.run calls) path number) ∧
      ((¬ ∃ key ∈ keysOf plan grams length, path <+: key ∧ path ≠ key) →
        SetsVisibly (tree.run calls) path number) := by
  have maps := run_maps built nonempty calls
  have lengths := @length_of_mem_keysOf plan grams length (build_eq_ok built nonempty).1
  rcases shaped_of_build built nonempty with ⟨remaining, shaped, -⟩
  have shaped := (shaped.run calls).1
  have found : ((tree.run calls).get? path).isSome ↔ path ∈ keysOf plan grams length := by
    rw [← maps.mem_keys_iff, Option.isSome_iff_exists, List.mem_map]
    simp only [maps.get?_iff]
    constructor
    · rintro ⟨number, listed⟩
      exact ⟨_, listed, rfl⟩
    · rintro ⟨pair, listed, rfl⟩
      exact ⟨pair.2, listed⟩
  constructor
  · rintro ⟨key, member, begins, proper⟩
    refine shaped.setsSilently ((maps.node?_iff path).2 ⟨key, member, begins⟩) ?_ number
    -- All keys are equally long, so a proper beginning of one is none of them.
    rw [← Option.not_isSome_iff_eq_none, found]
    intro listed
    exact proper (begins.eq_of_length (by rw [lengths path listed, lengths key member]))
  · intro whole
    refine shaped.setsVisibly (Iff.trans (maps.node?_iff path) (Iff.trans ?_ found.symm)) number
    constructor
    · rintro ⟨key, member, begins⟩
      by_contra unlisted
      exact whole ⟨key, member, begins, by rintro rfl; exact unlisted member⟩
    · intro listed
      exact ⟨path, listed, List.prefix_refl path⟩

/-- Two keys with one first byte, of which one has another number than at first. -/
theorem run_sets_numbers_of_shared_byte :
    ∃ tree, build ⟨1, 5, 1⟩ [0, 7, 3, 0, 7, 1] 3 = .ok tree ∧
      SetsSilently (tree.run [.set [7, 1] 9]) [7] 4 ∧ SetsVisibly (tree.run [.set [7, 1] 9]) [7, 1] 4 ∧
        SetsVisibly (tree.run [.set [7, 1] 9]) [7, 1, 0] 4 := by
  have succeeds : (build ⟨1, 5, 1⟩ [0, 7, 3, 0, 7, 1] 3).isOk := by decide +kernel
  rcases exists_of_isOk succeeds with ⟨tree, built⟩
  have sets := run_sets_numbers built (List.cons_ne_nil _ _) [.set [7, 1] 9]
  exact ⟨tree, built, (sets [7] 4).1 (by decide), (sets [7, 1] 4).2 (by decide),
    (sets [7, 1, 0] 4).2 (by decide)⟩

/-- The first byte of the only key can be set, although a lookup does not find it. -/
theorem set_accepts_beginning_of_key :
    build .usual [97, 98] 2 = .ok (.node 0 0 none [.node 97 0 none [.node 98 0 none []]]) ∧
      ¬ SetsVisibly (.node 0 0 none [.node 97 0 none [.node 98 0 none []]]) [97] 7 := by
  refine ⟨by rfl, fun visible => ?_⟩
  have found := visible.set.accepted_iff.1 ⟨_, rfl⟩
  exact absurd found (by decide)

end ByteTree

end GramCensus
