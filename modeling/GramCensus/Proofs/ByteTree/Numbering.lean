import GramCensus.Proofs.ByteTree.Runs

/-!
# How keys are numbered

Growing a tree stops at the smallest key that occurs twice (`ByteTree.stops_grow`). Without one, the keys
get numbers that follow each other, in their order (`ByteTree.values_grow`), and the tree is an index of
them (`ByteTree.Indexes`). So how building ends, and what it builds, can be told from the keys alone
(`ByteTree.build_numbers_keys`).
-/

namespace GramCensus

namespace ByteTree

/-! ## Where growing stops -/

/-- The keys of a group come before those of a group with a larger byte. -/
theorem pairwise_lt_groups {groups : List (UInt8 × List Bytes)}
    (sorted : (groups.map (·.1)).Pairwise (· < ·)) :
    groups.Pairwise fun a b => ∀ x ∈ a.2.map (a.1 :: ·), ∀ y ∈ b.2.map (b.1 :: ·), x < y := by
  refine (List.pairwise_map.1 sorted).imp fun {a b} before x inFirst y inSecond => ?_
  rcases List.mem_map.1 inFirst with ⟨_, -, rfl⟩
  rcases List.mem_map.1 inSecond with ⟨_, -, rfl⟩
  exact List.cons_lt_cons_iff.2 (.inl before)

/-- How growing ends, where `found` is the first key that occurs twice: with a failure that names the
last byte of this key, at its depth, or with success if there is none. -/
def Stops {α : Type} (depth : Nat) : (found : Option Bytes) → Except Failure α → Prop
  | none, result => ∃ value, result = .ok value
  | some key, result =>
    ∃ start byte, key = start ++ [byte] ∧ result = .error (.duplicateLeaf depth byte)

theorem Stops.map {α β : Type} {depth : Nat} {found : Option Bytes} {result : Except Failure α}
    (stops : Stops depth found result) (f : α → β) : Stops depth found (result.map f) := by
  cases found with
  | none =>
    rcases stops with ⟨value, rfl⟩
    exact ⟨f value, rfl⟩
  | some key =>
    rcases stops with ⟨start, byte, rfl, rfl⟩
    exact ⟨start, byte, rfl, rfl⟩

/-- Groups that are grown in turn stop at the first key that occurs twice. -/
theorem stops_growInTurn {wideAbove depth : Nat}
    {grow : List Bytes → UInt32 → Except Failure (List ByteTree)} {groups : List (UInt8 × List Bytes)}
    (sorted : (groups.map (·.1)).Pairwise (· < ·))
    (each : ∀ group ∈ groups, ∃ found, FindsRepeated (· < ·) group.2 found ∧
      ∀ offset, Stops depth found (grow group.2 offset)) :
    ∃ found, FindsRepeated (· < ·) (groupedStems groups) found ∧
      ∀ offset, Stops depth found (growInTurn wideAbove grow groups offset) := by
  induction groups with
  | nil => exact ⟨none, List.nodup_nil, fun offset => ⟨[], rfl⟩⟩
  | cons group groups ih =>
    rcases group with ⟨byte, keys⟩
    rcases List.forall_mem_cons.1 each with ⟨⟨found, finds, stops⟩, others⟩
    rcases ih (List.pairwise_cons.1 sorted).2 others with ⟨foundBehind, findsBehind, stopsBehind⟩
    rcases List.pairwise_cons.1 (pairwise_lt_groups sorted) with ⟨leads, -⟩
    -- The first group is searched before all others, as its keys come before theirs.
    have behindByte := finds.map (List.cons_injective) fun x y before =>
      List.cons_lt_cons_iff.2 (.inr ⟨(rfl : byte = byte), before⟩)
    refine ⟨_, behindByte.append List.lt_irrefl (fun x inFirst y inOthers => ?_) findsBehind,
      fun offset => ?_⟩
    · rcases List.mem_flatMap.1 inOthers with ⟨other, listed, inOther⟩
      exact leads other listed x inFirst y inOther
    · -- So growing stops in the first group, in one behind it, or not at all.
      rw [growInTurn]
      cases found with
      | some key =>
        rcases stops offset with ⟨start, last, rfl, stopped⟩
        rw [stopped]
        exact ⟨byte :: start, last, rfl, rfl⟩
      | none =>
        rcases stops offset with ⟨children, grown⟩
        rw [grown]
        have ends := stopsBehind (offset + keys.length.toUInt32)
        cases foundBehind with
        | some key =>
          rcases ends with ⟨start, last, rfl, stopped⟩
          exact ⟨start, last, rfl, by rw [stopped]⟩
        | none =>
          rcases ends with ⟨others, grownBehind⟩
          exact ⟨_, by rw [grownBehind]⟩

theorem stops_grow {wideAbove remaining depth : Nat} {keys : List Bytes}
    (lengths : ∀ key ∈ keys, key.length = remaining + 1) :
    ∃ found, FindsRepeated (· < ·) keys found ∧
      ∀ offset, Stops (depth + remaining) found (grow wideAbove (remaining + 1) depth keys offset) := by
  induction remaining generalizing depth keys with
  | zero =>
    -- At the last byte the keys of a group are all the same one.
    have alike : ∀ group ∈ groups keys, ∀ key ∈ group.2.map (group.1 :: ·), key = [group.1] := by
      intro group listed key member
      rcases List.mem_map.1 member with ⟨rest, inGroup, rfl⟩
      rw [List.length_eq_zero_iff.1 (length_of_mem_group lengths listed rest inGroup)]
    have finds := FindsRepeated.findSome? List.lt_irrefl (fun group listed => .of_alike (alike group listed))
      (pairwise_lt_groups (pairwise_groups keys))
    simp only [List.length_map, findSome?_ite] at finds
    refine ⟨_, finds.of_perm (groupedStems_groups_perm (ne_nil_of_lengths lengths)), fun offset => ?_⟩
    rw [grow, if_pos rfl]
    split
    case h_1 byte tails found =>
      rw [found]
      exact ⟨[], byte, rfl, rfl⟩
    case h_2 none =>
      rw [none]
      exact ⟨_, rfl⟩
  | succ remaining ih =>
    have each : ∀ group ∈ groups keys, ∃ found, FindsRepeated (· < ·) group.2 found ∧
        ∀ offset, Stops (depth + (remaining + 1)) found
          (grow wideAbove (remaining + 1) (depth + 1) group.2 offset) := by
      intro group listed
      rw [show depth + (remaining + 1) = depth + 1 + remaining by omega]
      exact ih (length_of_mem_group lengths listed)
    rcases @stops_growInTurn wideAbove _ _ _ (pairwise_groups keys) each with ⟨found, finds, stops⟩
    refine ⟨found, finds.of_perm (groupedStems_groups_perm (ne_nil_of_lengths lengths)), fun offset => ?_⟩
    rw [grow, if_neg (Nat.succ_ne_zero remaining)]
    exact stops offset

/-! ## The numbers of keys -/

/-- Numbers that follow each other, which wrap at `2 ^ 32`. -/
def numbersFrom (first : UInt32) (count : Nat) : List UInt32 :=
  (List.range count).map fun i => first + i.toUInt32

theorem numbersFrom_add (first : UInt32) (count more : Nat) :
    numbersFrom first (count + more) =
      numbersFrom first count ++ numbersFrom (first + count.toUInt32) more := by
  rw [numbersFrom, List.range_add, List.map_append, List.map_map, numbersFrom, numbersFrom]
  congr 1
  refine List.map_congr_left fun i _ => ?_
  rw [UInt32.add_assoc]
  exact congrArg (first + ·) (UInt32.ofNat_add count i)

/-- Without wrapping the numbers are those behind the first. -/
theorem map_toNat_numbersFrom {first : UInt32} {count : Nat} (fits : first.toNat + count ≤ 2 ^ 32) :
    (numbersFrom first count).map UInt32.toNat = List.range' first.toNat count := by
  rw [numbersFrom, List.map_map, List.range'_eq_map_range]
  refine List.map_congr_left fun i inRange => ?_
  have inside := List.mem_range.1 inRange
  rw [Function.comp_apply, UInt32.toNat_add, Nat.toUInt32_eq, UInt32.toNat_ofNat']
  omega

theorem map_snd_entriesIn_cons (remaining : Nat) (tree : ByteTree) (trees : List ByteTree) :
    (entriesIn (entries remaining) (tree :: trees)).map (·.2) =
      (entries remaining tree).map (·.2) ++ (entriesIn (entries remaining) trees).map (·.2) := by
  rw [entriesIn_cons, List.map_append, List.map_map]
  rfl

theorem map_snd_entriesIn_leaves (trees : List ByteTree) :
    (entriesIn (entries 0) trees).map (·.2) = trees.map value := by
  induction trees with
  | nil => rfl
  | cons tree trees ih =>
    rw [map_snd_entriesIn_cons, ih]
    rfl

theorem values_growInTurn {wideAbove remaining : Nat}
    {grow : List Bytes → UInt32 → Except Failure (List ByteTree)} {inTurn : List (UInt8 × List Bytes)}
    (each : ∀ group ∈ inTurn, ∀ offset children, grow group.2 offset = .ok children →
      (entriesIn (entries remaining) children).map (·.2) = numbersFrom offset group.2.length)
    {offset : UInt32} {trees : List ByteTree}
    (grown : growInTurn wideAbove grow inTurn offset = .ok trees) :
    (entriesIn (entries (remaining + 1)) trees).map (·.2) =
      numbersFrom offset (groupedStems inTurn).length := by
  induction inTurn generalizing offset trees with
  | nil =>
    cases grown
    rfl
  | cons group inTurn ih =>
    rcases List.forall_mem_cons.1 each with ⟨first, others⟩
    rcases growInTurn_cons_eq_ok grown with ⟨children, siblings, grownFirst, grownRest, rfl⟩
    have length_eq : (groupedStems (group :: inTurn)).length =
        group.2.length + (groupedStems inTurn).length := by
      simp [groupedStems]
    rw [length_eq, numbersFrom_add, map_snd_entriesIn_cons, ih others grownRest]
    exact congrArg (· ++ _) (first offset children grownFirst)

/-- Growing gives the keys below it numbers that follow each other. -/
theorem values_grow {wideAbove remaining depth : Nat} {keys : List Bytes} {offset : UInt32}
    {children : List ByteTree} (lengths : ∀ key ∈ keys, key.length = remaining + 1)
    (grown : grow wideAbove (remaining + 1) depth keys offset = .ok children) :
    (entriesIn (entries remaining) children).map (·.2) = numbersFrom offset keys.length := by
  induction remaining generalizing depth keys offset children with
  | zero =>
    rcases grow_one_eq_ok_iff.1 grown with ⟨single, rfl⟩
    -- Each group is a single key, so there are as many groups as keys.
    have one : ∀ group ∈ groups keys, group.2.length = 1 := fun group listed =>
      Nat.le_antisymm (single group listed) (List.length_pos_of_ne_nil (mem_groups.1 listed).2)
    have length_eq : (groups keys).length = keys.length := by
      rw [← (groupedStems_groups_perm (ne_nil_of_lengths lengths)).length_eq, groupedStems,
        List.length_flatMap, List.map_congr_left fun group listed =>
          (List.length_map ..).trans (one group listed), List.map_const', List.sum_replicate_nat,
        Nat.mul_one]
    rw [map_snd_entriesIn_leaves, ← length_eq, numbersFrom, List.range_eq_range',
      ← List.zipIdx_map_snd 0 (groups keys), leavesFor, List.map_map, List.map_map]
    rfl
  | succ remaining ih =>
    rw [grow, if_neg (Nat.succ_ne_zero remaining)] at grown
    -- There are as many numbers as keys, whatever the groups they are in.
    rw [← (groupedStems_groups_perm (ne_nil_of_lengths lengths)).length_eq]
    exact values_growInTurn (fun group listed offset children =>
      ih (length_of_mem_group lengths listed)) grown

/-! ## The index of the keys -/

theorem Shaped.firstLeafDepth_eq {wideAbove remaining : Nat} {tree : ByteTree}
    (shaped : Shaped wideAbove remaining tree) : tree.firstLeafDepth = remaining := by
  induction remaining generalizing tree with
  | zero =>
    rcases tree with ⟨byte, value, table, children⟩
    obtain rfl : children = [] := shaped.1
    rfl
  | succ remaining ih =>
    rcases tree with ⟨byte, value, table, children⟩
    rcases List.exists_cons_of_ne_nil shaped.1 with ⟨first, others, eq⟩
    obtain rfl : children = first :: others := eq
    rw [firstLeafDepth, firstLeafDepthIn, ih (shaped.child List.mem_cons_self)]

/-- A tree numbers some keys of one length in their order, from a first number on. -/
structure Indexes (keys : List Bytes) (first : UInt32) (length : Nat) (tree : ByteTree) : Prop where
  perm : tree.keys.Perm keys
  ascending : tree.keys.Pairwise (· < ·)
  toList_eq : tree.toList = tree.keys.zip (numbersFrom first keys.length)
  get?_eq_some_iff : ∀ key number, tree.get? key = some number ↔ (key, number) ∈ tree.toList
  keyLength_eq : tree.keyLength = length
  size_eq : tree.size = keys.length

theorem Indexes.values_eq {keys : List Bytes} {first : UInt32} {length : Nat} {tree : ByteTree}
    (indexes : Indexes keys first length tree) : tree.values = numbersFrom first keys.length := by
  rw [values, indexes.toList_eq]
  refine List.map_snd_zip (Nat.le_of_eq ?_)
  rw [numbersFrom, List.length_map, List.length_range, indexes.perm.length_eq]

/-- What a tree shows of its keys and their numbers. -/
def shown (tree : ByteTree) : List (Bytes × UInt32) × (Bytes → Option UInt32) × Nat × Nat :=
  (tree.toList, tree.get?, tree.keyLength, tree.size)

/-- Trees that number the same keys look the same. -/
theorem Indexes.shown_eq {keys : List Bytes} {first : UInt32} {length : Nat} {tree other : ByteTree}
    (indexes : Indexes keys first length tree) (indexes' : Indexes keys first length other) :
    shown tree = shown other := by
  have keys_eq : tree.keys = other.keys :=
    (indexes.perm.trans indexes'.perm.symm).eq_of_pairwise
      (fun _ _ _ _ before after => absurd after (List.lt_asymm before))
      indexes.ascending indexes'.ascending
  have toList_eq : tree.toList = other.toList := by
    rw [indexes.toList_eq, indexes'.toList_eq, keys_eq]
  have get?_eq : tree.get? = other.get? := by
    funext key
    apply Option.ext
    intro number
    rw [indexes.get?_eq_some_iff, indexes'.get?_eq_some_iff, toList_eq]
  rw [shown, shown, toList_eq, get?_eq, indexes.keyLength_eq, indexes'.keyLength_eq, indexes.size_eq,
    indexes'.size_eq]

section Build

variable {plan : TreePlan} {grams : Bytes} {length : Nat}

theorem build_of_uncut (uncut : length = 0 ∨ ¬ length ∣ grams.length) :
    build plan grams length = .error (.keyLength length grams.length) := by
  rw [build, if_pos (by rwa [ne_eq, ← Nat.dvd_iff_mod_eq_zero])]

theorem build_of_empty (positive : 0 < length) : build plan [] length = .ok empty := by
  rw [build, if_neg (by simp; omega), if_pos List.isEmpty_nil]

theorem build_of_outside (positive : 0 < length) (whole : length ∣ grams.length)
    (nonempty : grams ≠ []) (outside : length ≤ plan.byteIndex) :
    build plan grams length = .error (.byteIndex plan.byteIndex length) := by
  have cut : ¬ (length = 0 ∨ grams.length % length ≠ 0) := by
    rw [Nat.mod_eq_zero_of_dvd whole]
    omega
  rw [build, if_neg cut, if_neg (by simpa using nonempty), if_pos outside]

/-- Building stops at the first key that occurs twice. -/
theorem stops_build (whole : length ∣ grams.length) (nonempty : grams ≠ [])
    (inside : plan.byteIndex < length) :
    ∃ found, FindsRepeated (· < ·) (keysOf plan grams length) found ∧
      Stops (length - 1) found (build plan grams length) := by
  have lengths := @length_of_mem_keysOf plan grams length whole
  obtain ⟨remaining, length_eq⟩ := Nat.exists_eq_add_one_of_ne_zero (Nat.sub_ne_zero_of_lt inside)
  rw [length_eq] at lengths
  rcases @stops_grow plan.wideAbove remaining plan.byteIndex _ lengths with ⟨found, finds, stops⟩
  rw [show plan.byteIndex + remaining = length - 1 by omega] at stops
  refine ⟨found, finds, ?_⟩
  rw [build_eq_grow whole nonempty inside, length_eq]
  exact (stops plan.firstValue).map _

/-- A tree that is built numbers the keys of its n-grams. -/
theorem indexes_of_build {tree : ByteTree} (built : build plan grams length = .ok tree)
    (nonempty : grams ≠ []) (distinct : (keysOf plan grams length).Nodup) :
    Indexes (keysOf plan grams length) plan.firstValue (length - plan.byteIndex) tree := by
  rcases build_eq_ok built nonempty with ⟨whole, inside, children, grown, rfl⟩
  have lengths := @length_of_mem_keysOf plan grams length whole
  obtain ⟨remaining, length_eq⟩ := Nat.exists_eq_add_one_of_ne_zero (Nat.sub_ne_zero_of_lt inside)
  rw [length_eq] at grown lengths
  rcases (grown_of_grow lengths grown).node (keysOf_ne_nil whole nonempty) lengths 0 0 with
    ⟨shaped, holds⟩
  have maps := shaped.maps holds
  have ascending := maps.keys_eq ▸ maps.ascending
  have values := values_grow lengths grown
  have perm : (keys (.node 0 0 (tableOf? plan.wideAbove children) children)).Perm
      (keysOf plan grams length) := by
    -- Neither list repeats a key, so it is enough that they have the same ones.
    refine (List.perm_ext_iff_of_nodup (ascending.imp fun before same => ?_) distinct).2 fun key => ?_
    · exact List.lt_irrefl _ (same ▸ before)
    · rw [maps.keys_eq]
      exact holds key
  refine ⟨perm, ascending, ?_, ?_, ?_, ?_⟩
  · rw [maps.toList_eq]
    exact List.zip_of_prod maps.keys_eq.symm values
  · rw [maps.toList_eq]
    exact maps.get?_iff
  · rw [length_eq]
    exact shaped.firstLeafDepth_eq
  · rw [← perm.length_eq, size, keys, List.length_map]

/-- How building can end. -/
inductive Outcome (plan : TreePlan) (grams : Bytes) (length : Nat) : Except Failure ByteTree → Prop where
  | uncut (uncut : length = 0 ∨ ¬ length ∣ grams.length) :
    Outcome plan grams length (.error (.keyLength length grams.length))
  | empty (positive : 0 < length) (none : grams = []) : Outcome plan grams length (.ok empty)
  | outside (positive : 0 < length) (whole : length ∣ grams.length) (nonempty : grams ≠ [])
    (outside : length ≤ plan.byteIndex) :
    Outcome plan grams length (.error (.byteIndex plan.byteIndex length))
  | repeated (whole : length ∣ grams.length) (nonempty : grams ≠ []) (inside : plan.byteIndex < length)
    {start : Bytes} {byte : UInt8}
    (first : FirstRepeated (· < ·) (keysOf plan grams length) (start ++ [byte])) :
    Outcome plan grams length (.error (.duplicateLeaf (length - 1) byte))
  | indexed (whole : length ∣ grams.length) (nonempty : grams ≠ []) (inside : plan.byteIndex < length)
    (distinct : (keysOf plan grams length).Nodup) {tree : ByteTree}
    (indexes : Indexes (keysOf plan grams length) plan.firstValue (length - plan.byteIndex) tree) :
    Outcome plan grams length (.ok tree)

theorem outcome_build (plan : TreePlan) (grams : Bytes) (length : Nat) :
    Outcome plan grams length (build plan grams length) := by
  by_cases uncut : length = 0 ∨ ¬ length ∣ grams.length
  · rw [build_of_uncut uncut]
    exact .uncut uncut
  have positive : 0 < length := by omega
  have whole : length ∣ grams.length := by
    by_contra uncut'
    exact uncut (.inr uncut')
  by_cases none : grams = []
  · rw [none, build_of_empty positive]
    exact .empty positive rfl
  by_cases outside : length ≤ plan.byteIndex
  · rw [build_of_outside positive whole none outside]
    exact .outside positive whole none outside
  have inside := Nat.lt_of_not_le outside
  rcases stops_build whole none inside with ⟨found, finds, stops⟩
  cases found with
  | some key =>
    rcases stops with ⟨start, byte, rfl, fails⟩
    rw [fails]
    exact .repeated whole none inside finds
  | none =>
    rcases stops with ⟨tree, built⟩
    rw [built]
    exact .indexed whole none inside finds (indexes_of_build built none finds)

/-- Whether nodes have tables makes no difference to what a tree that is built shows. -/
theorem map_shown_build (plan : TreePlan) (grams : Bytes) (length wideAbove : Nat) :
    (build { plan with wideAbove } grams length).map shown = (build plan grams length).map shown := by
  have outcome := outcome_build plan grams length
  generalize build plan grams length = result at outcome
  cases outcome with
  | uncut uncut => rw [build_of_uncut uncut]
  | empty positive none => rw [none, build_of_empty positive]
  | outside positive whole nonempty outside =>
    rw [@build_of_outside { plan with wideAbove } _ _ positive whole nonempty outside]
  | @repeated whole nonempty inside start byte first =>
    -- The other plan has the same keys, and so the same one is the first that occurs twice.
    rcases @stops_build { plan with wideAbove } _ _ whole nonempty inside with ⟨found, finds, stops⟩
    obtain rfl : found = some (start ++ [byte]) := finds.unique
      (fun _ _ => List.lt_asymm) first
    rcases stops with ⟨start', byte', key_eq, fails⟩
    rcases List.append_inj' key_eq rfl with ⟨-, last⟩
    rw [fails, (List.cons.inj last).1]
  | indexed whole nonempty inside distinct indexes =>
    rcases @stops_build { plan with wideAbove } _ _ whole nonempty inside with ⟨found, finds, stops⟩
    obtain rfl := finds.eq_none_iff.2 distinct
    rcases stops with ⟨tree', built⟩
    rw [built]
    exact congrArg Except.ok ((indexes_of_build built nonempty distinct).shown_eq indexes)

/-- What comes of building a tree. A run that is not cut into n-grams without remainder is refused with
its length, and one without n-grams gives the empty tree. Otherwise a plan whose keys would have no
bytes is refused. All other plans give a tree that numbers the keys in their order, as long as these
are all different; if not, the failure names the last byte of the smallest key that occurs twice. Whether
nodes have tables makes no difference. -/
theorem build_numbers_keys (plan : TreePlan) (grams : Bytes) (length : Nat) :
    (build plan grams length = .error (.keyLength length grams.length) ↔
        length = 0 ∨ ¬ length ∣ grams.length) ∧
      (0 < length → length ∣ grams.length →
        (build plan grams length = .ok empty ↔ grams = []) ∧
        (grams ≠ [] →
          (build plan grams length = .error (.byteIndex plan.byteIndex length) ↔
            length ≤ plan.byteIndex) ∧
          (plan.byteIndex < length →
            ((∃ depth byte, build plan grams length = .error (.duplicateLeaf depth byte)) ↔
              ¬ (keysOf plan grams length).Nodup) ∧
            (¬ (keysOf plan grams length).Nodup →
              ∃ start byte, FirstRepeated (· < ·) (keysOf plan grams length) (start ++ [byte]) ∧
                build plan grams length = .error (.duplicateLeaf (length - 1) byte)) ∧
            ((keysOf plan grams length).Nodup →
              ∃ tree, build plan grams length = .ok tree ∧
                Indexes (keysOf plan grams length) plan.firstValue (length - plan.byteIndex) tree ∧
                (plan.firstValue.toNat + grams.length / length ≤ 2 ^ 32 →
                  tree.values.map UInt32.toNat =
                    List.range' plan.firstValue.toNat (grams.length / length)))))) ∧
      ∀ wideAbove, (build { plan with wideAbove } grams length).map shown =
        (build plan grams length).map shown := by
  have outcome := outcome_build plan grams length
  refine ⟨⟨fun refused => ?uncut, build_of_uncut⟩, fun positive whole =>
    ⟨⟨fun built => ?empty, fun none => none ▸ build_of_empty positive⟩, fun nonempty =>
      ⟨⟨fun refused => ?outside, build_of_outside positive whole nonempty⟩, fun inside => ?keys⟩⟩,
    map_shown_build plan grams length⟩
  case uncut =>
    rw [refused] at outcome
    cases outcome with
    | uncut uncut => exact uncut
  case empty =>
    by_contra nonempty
    rcases shaped_of_build built nonempty with ⟨_, shaped, -⟩
    exact shaped.1 rfl
  case outside =>
    rw [refused] at outcome
    cases outcome with
    | outside _ _ _ outside => exact outside
  case keys =>
    generalize build plan grams length = result at outcome
    cases outcome with
    | uncut uncut => exact absurd whole (uncut.resolve_left (Nat.ne_of_gt positive))
    | empty _ none => exact absurd none nonempty
    | outside _ _ _ outside => exact absurd inside (Nat.not_lt_of_le outside)
    | @repeated _ _ _ start byte first =>
      have repeats := not_nodup_of_one_lt_count first.repeated
      exact ⟨iff_of_true ⟨_, _, rfl⟩ repeats, fun _ => ⟨start, byte, first, rfl⟩,
        fun distinct => absurd distinct repeats⟩
    | @indexed _ _ _ distinct tree indexes =>
      refine ⟨iff_of_false (by rintro ⟨_, _, ⟨⟩⟩) (not_not_intro distinct),
        fun repeats => absurd distinct repeats, fun _ => ⟨tree, rfl, indexes, fun fits => ?_⟩⟩
      rw [indexes.values_eq, length_keysOf]
      exact map_toNat_numbersFrom fits

/-- Keys behind the first byte: two different ones are numbered from 512 on. Of four, where both of two
different ones occur twice, the smaller one is refused, although it stands behind the other. -/
theorem build_numbers_keys_behind_first_byte :
    (∃ tree, build ⟨1, 512, 0⟩ [9, 2, 7, 1, 1, 5] 3 = .ok tree ∧ Indexes [[2, 7], [1, 5]] 512 2 tree ∧
        tree.values.map UInt32.toNat = [512, 513]) ∧
      build ⟨1, 0, 4⟩ [9, 2, 7, 1, 1, 5, 8, 2, 7, 0, 1, 5] 3 = .error (.duplicateLeaf 2 5) := by
  constructor
  · rcases ((build_numbers_keys ⟨1, 512, 0⟩ [9, 2, 7, 1, 1, 5] 3).2.1 (by decide) (by decide)).2
      (by decide) with ⟨-, inside⟩
    rcases (inside (by decide)).2.2 (by decide) with ⟨tree, built, indexes, numbers⟩
    exact ⟨tree, built, indexes, numbers (by decide)⟩
  · rcases ((build_numbers_keys ⟨1, 0, 4⟩ [9, 2, 7, 1, 1, 5, 8, 2, 7, 0, 1, 5] 3).2.1 (by decide)
      (by decide)).2 (by decide) with ⟨-, inside⟩
    rcases (inside (by decide)).2.1 (by decide) with ⟨start, byte, first, fails⟩
    have member := mem_of_one_lt_count first.repeated
    have keys_eq : keysOf ⟨1, 0, 4⟩ [9, 2, 7, 1, 1, 5, 8, 2, 7, 0, 1, 5] 3 =
        [[2, 7], [1, 5], [2, 7], [1, 5]] := by decide
    have larger : start ++ [byte] ≠ [2, 7] := by
      intro same
      exact absurd (same ▸ first.first [1, 5] (by decide) (by rw [same]; decide)) (by decide)
    obtain ⟨-, last⟩ : start = [1] ∧ [byte] = [5] := by
      refine List.append_inj' ?_ rfl
      simpa [keys_eq, larger] using member
    rwa [(List.cons.inj last).1] at fails

end Build

end ByteTree

end GramCensus
