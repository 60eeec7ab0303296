import GramCensus.Proofs.ByteTree.Shape
import GramCensus.Proofs.RankTrie.Order

/-!
# What building a byte tree makes

Building sorts the keys into groups by their first byte, and grows a child for each group
(`ByteTree.Grown`). A tree that is built has the shape of one, and its keys are those it is built from
(`ByteTree.shaped_of_build`).
-/

namespace GramCensus

namespace ByteTree

/-! ## Groups of keys -/

theorem mem_tailsBehind {byte : UInt8} {keys : List Bytes} {rest : Bytes} :
    rest ∈ tailsBehind byte keys ↔ byte :: rest ∈ keys := by
  rw [tailsBehind, List.mem_filterMap]
  constructor
  · rintro ⟨key, member, eq⟩
    cases key with
    | nil => cases eq
    | cons first tail =>
      dsimp only at eq
      split at eq
      · cases eq
        rename_i same
        rwa [← same]
      · cases eq
  · intro member
    exact ⟨byte :: rest, member, if_pos rfl⟩

theorem mem_groups {keys : List Bytes} {byte : UInt8} {tails : List Bytes} :
    (byte, tails) ∈ groups keys ↔ tails = tailsBehind byte keys ∧ tails ≠ [] := by
  rw [groups, List.mem_filterMap]
  constructor
  · rintro ⟨other, -, eq⟩
    dsimp only at eq
    split at eq
    · cases eq
    case isFalse nonempty =>
      cases eq
      exact ⟨rfl, fun none => nonempty (List.isEmpty_iff.2 none)⟩
  · rintro ⟨rfl, nonempty⟩
    exact ⟨byte, mem_allBytes byte, if_neg fun none => nonempty (List.isEmpty_iff.1 none)⟩

/-- The groups stand by ascending byte. -/
theorem pairwise_groups (keys : List Bytes) : ((groups keys).map (·.1)).Pairwise (· < ·) := by
  rw [List.pairwise_map, groups, List.pairwise_filterMap]
  refine pairwise_lt_allBytes.imp fun {a b} before first found second found' => ?_
  dsimp only at found found'
  split at found
  · cases found
  · split at found'
    · cases found'
    · cases found
      cases found'
      exact before

/-- The groups hold all keys that have a first byte. -/
theorem mem_keys_iff {keys : List Bytes} {key : Bytes} (nonempty : key ≠ []) :
    key ∈ keys ↔ ∃ group ∈ groups keys, ∃ rest ∈ group.2, key = group.1 :: rest := by
  constructor
  · intro member
    rcases List.exists_cons_of_ne_nil nonempty with ⟨byte, rest, rfl⟩
    have inGroup := mem_tailsBehind.2 member
    exact ⟨(byte, tailsBehind byte keys), mem_groups.2 ⟨rfl, List.ne_nil_of_mem inGroup⟩, rest,
      inGroup, rfl⟩
  · rintro ⟨⟨byte, tails⟩, group, rest, member, rfl⟩
    rw [(mem_groups.1 group).1] at member
    exact mem_tailsBehind.1 member

theorem map_tailsBehind {keys : List Bytes} (byte : UInt8) :
    (tailsBehind byte keys).map (byte :: ·) = keys.filter fun key => key.head? == some byte := by
  induction keys with
  | nil => rfl
  | cons key keys ih =>
    cases key with
    | nil => simpa [tailsBehind] using ih
    | cons first rest =>
      by_cases same : first = byte
      · simpa [tailsBehind, same] using ih
      · simpa [tailsBehind, same] using ih

/-- The groups of keys that are not empty hold each key as often as it occurs. -/
theorem groupedStems_groups_perm {keys : List Bytes} (nonempty : ∀ key ∈ keys, key ≠ []) :
    (groupedStems (groups keys)).Perm keys := by
  have listed : groupedStems (groups keys) =
      allBytes.flatMap fun byte => keys.filter fun key => key.head? == some byte := by
    simp only [← map_tailsBehind]
    refine flatMap_filterMap_of_skips (fun byte => (byte, tailsBehind byte keys))
      (fun group => group.2.map (group.1 :: ·)) (fun byte empty => ?_) allBytes
    rw [List.isEmpty_iff.1 empty, List.map_nil]
  have distinct : (allBytes.map some).Nodup := nodup_allBytes.map fun _ _ => Option.some.inj
  have sorted := perm_flatMap_filter List.head? keys distinct
  rw [List.flatMap_map] at sorted
  have all : (keys.filter fun key => (allBytes.map some).contains key.head?) = keys := by
    refine List.filter_eq_self.2 fun key member => ?_
    rcases List.exists_cons_of_ne_nil (nonempty key member) with ⟨byte, rest, rfl⟩
    simp [mem_allBytes]
  rw [listed]
  rwa [all] at sorted

theorem ne_nil_of_lengths {remaining : Nat} {keys : List Bytes}
    (lengths : ∀ key ∈ keys, key.length = remaining + 1) : ∀ key ∈ keys, key ≠ [] := fun key member =>
  List.ne_nil_of_length_pos (by rw [lengths key member]; exact Nat.succ_pos remaining)

theorem length_of_mem_group {remaining : Nat} {keys : List Bytes}
    (lengths : ∀ key ∈ keys, key.length = remaining + 1) {group : UInt8 × List Bytes}
    (member : group ∈ groups keys) : ∀ rest ∈ group.2, rest.length = remaining := by
  intro rest inGroup
  rw [(mem_groups.1 member).1] at inGroup
  exact Nat.succ.inj (lengths _ (mem_tailsBehind.1 inGroup))

/-! ## Growing children -/

/-- Trees whose leaves are `remaining` bytes below them, with the keys of some groups: each with the
byte of its group, and what is behind it. -/
structure Grown (wideAbove remaining : Nat) (groups : List (UInt8 × List Bytes))
    (trees : List ByteTree) : Prop where
  bytes_eq : trees.map byte = groups.map (·.1)
  shaped : ∀ tree ∈ trees, Shaped wideAbove remaining tree
  mem_iff : ∀ key, key ∈ (entriesIn (entries remaining) trees).map (·.1) ↔
    ∃ group ∈ groups, ∃ rest ∈ group.2, key = group.1 :: rest

namespace Grown

variable {wideAbove remaining : Nat}

theorem nil : Grown wideAbove remaining [] [] where
  bytes_eq := rfl
  shaped := by simp
  mem_iff := by simp [entriesIn]

theorem cons {group : UInt8 × List Bytes} {groups : List (UInt8 × List Bytes)} {tree : ByteTree}
    {trees : List ByteTree} (same : tree.byte = group.1) (shaped : Shaped wideAbove remaining tree)
    (holds : ∀ rest, rest ∈ (entries remaining tree).map (·.1) ↔ rest ∈ group.2)
    (others : Grown wideAbove remaining groups trees) :
    Grown wideAbove remaining (group :: groups) (tree :: trees) where
  bytes_eq := by rw [List.map_cons, List.map_cons, same, others.bytes_eq]
  shaped := List.forall_mem_cons.2 ⟨shaped, others.shaped⟩
  mem_iff key := by
    have first : key ∈ ((entries remaining tree).map fun pair => (tree.byte :: pair.1, pair.2)).map
        (·.1) ↔ ∃ rest ∈ group.2, key = group.1 :: rest := by
      rw [List.map_map, List.mem_map, ← same]
      constructor
      · rintro ⟨pair, member, rfl⟩
        exact ⟨pair.1, (holds _).1 (List.mem_map_of_mem member), rfl⟩
      · rintro ⟨rest, inGroup, rfl⟩
        rcases List.mem_map.1 ((holds rest).2 inGroup) with ⟨pair, member, rfl⟩
        exact ⟨pair, member, rfl⟩
    rw [entriesIn_cons, List.map_append, List.mem_append, first, others.mem_iff]
    simp

/-- The node above the children that are grown for some keys. -/
theorem node {keys : List Bytes} {children : List ByteTree}
    (grown : Grown wideAbove remaining (groups keys) children) (nonempty : keys ≠ [])
    (lengths : ∀ key ∈ keys, key.length = remaining + 1) (byte : UInt8) (value : UInt32) :
    Shaped wideAbove (remaining + 1) (.node byte value (tableOf? wideAbove children) children) ∧
      ∀ key, key ∈ (entries (remaining + 1) (.node byte value (tableOf? wideAbove children)
        children)).map (·.1) ↔ key ∈ keys := by
  have hasByte := ne_nil_of_lengths lengths
  -- As no key is empty, the groups have all of them.
  have holds : ∀ key, key ∈ (entriesIn (entries remaining) children).map (·.1) ↔ key ∈ keys := by
    intro key
    rw [grown.mem_iff]
    by_cases none : key = []
    · refine iff_of_false ?_ fun member => hasByte key member none
      rintro ⟨group, -, rest, -, eq⟩
      rw [none] at eq
      cases eq
    · exact (mem_keys_iff none).symm
  refine ⟨⟨?_, rfl, ?_, grown.shaped⟩, holds⟩
  · rintro rfl
    rcases List.exists_mem_of_ne_nil _ nonempty with ⟨key, member⟩
    cases (holds key).2 member
  · exact (congrArg (List.Pairwise (· < ·)) grown.bytes_eq).mpr (pairwise_groups keys)

end Grown

/-- The leaves for groups of keys, which only take the bytes from them, numbered from a first number
on. -/
def leavesFor (groups : List (UInt8 × List Bytes)) (offset : UInt32) : List ByteTree :=
  groups.zipIdx.map fun place => .node place.1.1 (offset + place.2.toUInt32) none []

/-- At the last byte each group has its own leaf, if it is a single key. -/
theorem grow_one_eq_ok_iff {wideAbove depth : Nat} {keys : List Bytes} {offset : UInt32}
    {children : List ByteTree} :
    grow wideAbove 1 depth keys offset = .ok children ↔
      (∀ group ∈ groups keys, group.2.length ≤ 1) ∧ children = leavesFor (groups keys) offset := by
  rw [grow, if_pos rfl]
  split
  case h_1 byte tails found =>
    refine iff_of_false nofun fun single => ?_
    have several := List.find?_some found
    have few := single.1 _ (List.mem_of_find?_eq_some found)
    rw [decide_eq_true_iff] at several
    omega
  case h_2 none =>
    have single : ∀ group ∈ groups keys, group.2.length ≤ 1 := fun group listed => by
      simpa using List.find?_eq_none.1 none group listed
    rw [Except.ok.injEq, eq_comm]
    exact (and_iff_right single).symm

/-- The leaves for groups of keys that end with their first byte. -/
theorem grown_leaves {wideAbove : Nat} {groups : List (UInt8 × List Bytes)}
    (ends : ∀ group ∈ groups, group.2 ≠ [] ∧ ∀ rest ∈ group.2, rest.length = 0) (offset : UInt32)
    (k : Nat) :
    Grown wideAbove 0 groups ((groups.zipIdx k).map fun place =>
      .node place.1.1 (offset + place.2.toUInt32) none []) := by
  induction groups generalizing k with
  | nil => exact .nil
  | cons group groups ih =>
    rcases List.forall_mem_cons.1 ends with ⟨⟨nonempty, short⟩, others⟩
    refine .cons rfl ⟨rfl, rfl⟩ (fun rest => ?_) (ih others (k + 1))
    rw [entries, List.map_singleton, List.mem_singleton]
    constructor
    · rintro rfl
      rcases List.exists_mem_of_ne_nil _ nonempty with ⟨only, member⟩
      rwa [← List.length_eq_zero_iff.1 (short only member)]
    · exact fun member => List.length_eq_zero_iff.1 (short rest member)

/-- Growing in turn for a first group and others is growing for the first, and then for the others from
where its numbers end. -/
theorem growInTurn_cons_eq_ok {wideAbove : Nat}
    {grow : List Bytes → UInt32 → Except Failure (List ByteTree)} {group : UInt8 × List Bytes}
    {groups : List (UInt8 × List Bytes)} {offset : UInt32} {trees : List ByteTree}
    (grown : growInTurn wideAbove grow (group :: groups) offset = .ok trees) :
    ∃ children others, grow group.2 offset = .ok children ∧
      growInTurn wideAbove grow groups (offset + group.2.length.toUInt32) = .ok others ∧
      trees = .node group.1 0 (tableOf? wideAbove children) children :: others := by
  rw [growInTurn] at grown
  split at grown
  · cases grown
  case h_2 children first =>
    split at grown
    · cases grown
    case h_2 others rest =>
      cases grown
      exact ⟨children, others, first, rest, rfl⟩

/-- The nodes that are grown in turn for groups of keys. -/
theorem grown_of_growInTurn {wideAbove remaining : Nat}
    {grow : List Bytes → UInt32 → Except Failure (List ByteTree)}
    (each : ∀ {keys offset children}, (∀ key ∈ keys, key.length = remaining + 1) →
      grow keys offset = .ok children → Grown wideAbove remaining (groups keys) children)
    {inTurn : List (UInt8 × List Bytes)}
    (sized : ∀ group ∈ inTurn, group.2 ≠ [] ∧ ∀ rest ∈ group.2, rest.length = remaining + 1)
    {offset : UInt32} {trees : List ByteTree}
    (grown : growInTurn wideAbove grow inTurn offset = .ok trees) :
    Grown wideAbove (remaining + 1) inTurn trees := by
  induction inTurn generalizing offset trees with
  | nil =>
    cases grown
    exact .nil
  | cons group inTurn ih =>
    rcases List.forall_mem_cons.1 sized with ⟨⟨nonempty, lengths⟩, others⟩
    rcases growInTurn_cons_eq_ok grown with ⟨children, siblings, first, rest, rfl⟩
    -- The first group has its own children; the others are grown as if it were not there.
    rcases (each lengths first).node nonempty lengths group.1 0 with ⟨shaped, holds⟩
    exact .cons rfl shaped holds (ih others rest)

theorem grown_of_grow {wideAbove remaining depth : Nat} {keys : List Bytes} {offset : UInt32}
    {children : List ByteTree} (lengths : ∀ key ∈ keys, key.length = remaining + 1)
    (grown : grow wideAbove (remaining + 1) depth keys offset = .ok children) :
    Grown wideAbove remaining (groups keys) children := by
  induction remaining generalizing depth keys offset children with
  | zero =>
    rw [(grow_one_eq_ok_iff.1 grown).2]
    exact grown_leaves (fun group member =>
      ⟨(mem_groups.1 member).2, length_of_mem_group lengths member⟩) offset 0
  | succ remaining ih =>
    rw [grow, if_neg (Nat.succ_ne_zero remaining)] at grown
    exact grown_of_growInTurn ih (fun group member =>
      ⟨(mem_groups.1 member).2, length_of_mem_group lengths member⟩) grown

/-! ## Building a tree -/

theorem length_of_mem_cutKeys {length count : Nat} {bytes : Bytes}
    (whole : bytes.length = count * length) :
    ∀ key ∈ cutKeys length count bytes, key.length = length := by
  induction count generalizing bytes with
  | zero => simp [cutKeys]
  | succ count ih =>
    rw [Nat.succ_mul] at whole
    refine List.forall_mem_cons.2 ⟨?_, ih ?_⟩
    · rw [List.length_take]
      omega
    · rw [List.length_drop]
      omega

@[simp] theorem length_cutKeys (length count : Nat) (bytes : Bytes) :
    (cutKeys length count bytes).length = count := by
  induction count generalizing bytes with
  | zero => rfl
  | succ count ih => rw [cutKeys, List.length_cons, ih]

@[simp] theorem length_keysOf (plan : TreePlan) (grams : Bytes) (length : Nat) :
    (keysOf plan grams length).length = grams.length / length := by
  rw [keysOf, List.length_map, length_cutKeys]

section Keys

variable {plan : TreePlan} {grams : Bytes} {length : Nat}

/-- A run that is cut without remainder has keys of one length. -/
theorem length_of_mem_keysOf (whole : length ∣ grams.length) :
    ∀ key ∈ keysOf plan grams length, key.length = length - plan.byteIndex := by
  intro key member
  rcases List.mem_map.1 member with ⟨gram, piece, rfl⟩
  rw [List.length_drop, length_of_mem_cutKeys (Nat.div_mul_cancel whole).symm gram piece]

theorem keysOf_ne_nil (whole : length ∣ grams.length) (nonempty : grams ≠ []) :
    keysOf plan grams length ≠ [] := by
  intro none
  have count := length_keysOf plan grams length
  rw [none, List.length_nil] at count
  have cut := Nat.div_mul_cancel whole
  rw [← count, Nat.zero_mul] at cut
  exact nonempty (List.length_eq_zero_iff.1 cut.symm)

/-- N-grams that have bytes from the plan's byte on are built into the node above what is grown. -/
theorem build_eq_grow (whole : length ∣ grams.length) (nonempty : grams ≠ [])
    (inside : plan.byteIndex < length) :
    build plan grams length =
      (grow plan.wideAbove (length - plan.byteIndex) plan.byteIndex (keysOf plan grams length)
        plan.firstValue).map
          fun children => .node 0 0 (tableOf? plan.wideAbove children) children := by
  have cut : ¬ (length = 0 ∨ grams.length % length ≠ 0) := by
    rw [Nat.mod_eq_zero_of_dvd whole]
    omega
  rw [build, if_neg cut, if_neg (by simpa using nonempty), if_neg (Nat.not_le_of_lt inside)]
  split
  case h_1 failure refused => rw [refused, Except.map]
  case h_2 children grown => rw [grown, Except.map]

/-- Building only succeeds where it grows a tree, or where there is nothing to grow. -/
theorem build_eq_ok {tree : ByteTree} (built : build plan grams length = .ok tree)
    (nonempty : grams ≠ []) :
    length ∣ grams.length ∧ plan.byteIndex < length ∧
      ∃ children, grow plan.wideAbove (length - plan.byteIndex) plan.byteIndex
        (keysOf plan grams length) plan.firstValue = .ok children ∧
          tree = .node 0 0 (tableOf? plan.wideAbove children) children := by
  rw [build] at built
  split at built
  · cases built
  rename_i cut
  rw [if_neg (by simpa using nonempty)] at built
  split at built
  · cases built
  rename_i inside
  split at built
  · cases built
  case h_2 children grown =>
    cases built
    exact ⟨Nat.dvd_of_mod_eq_zero (by omega), Nat.lt_of_not_le inside, children, grown, rfl⟩

end Keys

/-- A tree that is built from at least one n-gram has the shape of one, and the keys of its n-grams. -/
theorem shaped_of_build {plan : TreePlan} {grams : Bytes} {length : Nat} {tree : ByteTree}
    (built : build plan grams length = .ok tree) (nonempty : grams ≠ []) :
    ∃ remaining, Shaped plan.wideAbove (remaining + 1) tree ∧
      ∀ key, key ∈ (entries (remaining + 1) tree).map (·.1) ↔ key ∈ keysOf plan grams length := by
  rcases build_eq_ok built nonempty with ⟨whole, inside, children, grown, rfl⟩
  have lengths := @length_of_mem_keysOf plan grams length whole
  obtain ⟨remaining, length_eq⟩ := Nat.exists_eq_add_one_of_ne_zero (Nat.sub_ne_zero_of_lt inside)
  rw [length_eq] at grown lengths
  exact ⟨remaining, (grown_of_grow lengths grown).node (keysOf_ne_nil whole nonempty) lengths 0 0⟩

theorem exists_of_isOk {result : Except Failure ByteTree} (succeeds : result.isOk) :
    ∃ tree, result = .ok tree := by
  cases result with
  | error failure => cases succeeds
  | ok tree => exact ⟨tree, rfl⟩

/-- Without n-grams the tree that is built is empty. -/
theorem build_nil {plan : TreePlan} {length : Nat} {tree : ByteTree}
    (built : build plan [] length = .ok tree) : tree = empty := by
  rw [build] at built
  split at built
  · cases built
  · exact (Except.ok.inj built).symm

end ByteTree

end GramCensus
