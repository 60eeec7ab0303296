import GramCensus.Proofs.Bytes
import GramCensus.Proofs.ByteTree.Numbering
import Mathlib.Data.List.Forall2

/-!
# Building a byte tree again

A tree depends on its keys alone, not on the order in which they came (`ByteTree.build_eq_ok_of_perm`). So
building from the keys that a tree lists gives the tree again, and these keys can be told from the texts
of the tree (`ByteTree.gramTexts_eq`, `Bytes.ofHex?_hex`): nothing is lost on the way
(`ByteTree.build_rebuilds`).
-/

namespace GramCensus

namespace ByteTree

/-! ## The order of the keys -/

/-- Groups for one byte with the same keys, in any order. -/
def SameGroup (group other : UInt8 × List Bytes) : Prop :=
  group.1 = other.1 ∧ group.2.Perm other.2

theorem sameGroups_of_perm {keys others : List Bytes} (perm : keys.Perm others) :
    List.Forall₂ SameGroup (groups keys) (groups others) := by
  refine List.rel_filterMap (fun byte _ same => ?_) (List.forall₂_same.2 fun _ _ => rfl)
  subst same
  have tails : (tailsBehind byte keys).Perm (tailsBehind byte others) := perm.filterMap _
  dsimp only
  rw [tails.isEmpty_eq]
  split
  · exact .none
  · exact .some ⟨rfl, tails⟩

theorem growInTurn_of_sameGroups {wideAbove : Nat}
    {grow grow' : List Bytes → UInt32 → Except Failure (List ByteTree)}
    (each : ∀ {keys others offset children}, keys.Perm others → grow keys offset = .ok children →
      grow' others offset = .ok children) {inTurn others : List (UInt8 × List Bytes)}
    (same : List.Forall₂ SameGroup inTurn others) {offset : UInt32} {trees : List ByteTree}
    (grown : growInTurn wideAbove grow inTurn offset = .ok trees) :
    growInTurn wideAbove grow' others offset = .ok trees := by
  induction same generalizing offset trees with
  | nil => exact grown
  | @cons group other inTurn others first _ ih =>
    rcases growInTurn_cons_eq_ok grown with ⟨children, siblings, grownFirst, grownRest, rfl⟩
    rcases first with ⟨byte_eq, perm⟩
    rw [growInTurn, each perm grownFirst]
    dsimp only
    rw [← perm.length_eq, ih grownRest, byte_eq]

/-- The same leaves are made for groups with the same bytes. -/
theorem leavesFor_of_sameGroups {groups others : List (UInt8 × List Bytes)}
    (same : List.Forall₂ SameGroup groups others) (offset : UInt32) :
    leavesFor groups offset = leavesFor others offset := by
  have bytes_eq : groups.map (·.1) = others.map (·.1) := by
    induction same with
    | nil => rfl
    | cons first _ ih => rw [List.map_cons, List.map_cons, first.1, ih]
  have fromBytes : ∀ groups : List (UInt8 × List Bytes), leavesFor groups offset =
      (groups.map (·.1)).zipIdx.map fun place =>
        .node place.1 (offset + place.2.toUInt32) none [] := by
    intro groups
    rw [leavesFor, List.zipIdx_map, List.map_map]
    rfl
  rw [fromBytes, fromBytes, bytes_eq]

theorem forall_single_of_sameGroups {groups others : List (UInt8 × List Bytes)}
    (same : List.Forall₂ SameGroup groups others) (single : ∀ group ∈ groups, group.2.length ≤ 1) :
    ∀ group ∈ others, group.2.length ≤ 1 := by
  induction same with
  | nil => exact single
  | cons first _ ih =>
    rcases List.forall_mem_cons.1 single with ⟨singleFirst, singleOthers⟩
    exact List.forall_mem_cons.2 ⟨first.2.length_eq ▸ singleFirst, ih singleOthers⟩

/-- What is grown depends on the keys, but not on their order, nor on the depth at which it is grown. -/
theorem grow_of_perm {wideAbove remaining depth depth' : Nat} {keys others : List Bytes}
    {offset : UInt32} {children : List ByteTree} (perm : keys.Perm others)
    (grown : grow wideAbove remaining depth keys offset = .ok children) :
    grow wideAbove remaining depth' others offset = .ok children := by
  induction remaining generalizing depth depth' keys others offset children with
  | zero => exact grown
  | succ remaining ih =>
    have same := sameGroups_of_perm perm
    by_cases last : remaining = 0
    · subst last
      rcases grow_one_eq_ok_iff.1 grown with ⟨single, rfl⟩
      exact grow_one_eq_ok_iff.2
        ⟨forall_single_of_sameGroups same single, leavesFor_of_sameGroups same offset⟩
    · rw [grow, if_neg last] at grown ⊢
      refine growInTurn_of_sameGroups ?_ same grown
      exact ih

/-! ## Cutting -/

theorem cutKeys_flatten {length : Nat} {pieces : List Bytes}
    (lengths : ∀ piece ∈ pieces, piece.length = length) :
    cutKeys length pieces.length pieces.flatten = pieces := by
  induction pieces with
  | nil => rfl
  | cons piece pieces ih =>
    rcases List.forall_mem_cons.1 lengths with ⟨first, others⟩
    rw [List.length_cons, cutKeys, List.flatten_cons, List.take_left' first, List.drop_left' first,
      ih others]

theorem length_flatten_of_lengths {length : Nat} {pieces : List Bytes}
    (lengths : ∀ piece ∈ pieces, piece.length = length) :
    pieces.flatten.length = pieces.length * length := by
  rw [List.length_flatten, List.map_congr_left lengths, List.map_const', List.sum_replicate_nat]

/-- Pieces of one length that stand one behind the other are cut apart again. -/
theorem keysOf_flatten {plan : TreePlan} {length : Nat} {pieces : List Bytes} (positive : 0 < length)
    (lengths : ∀ piece ∈ pieces, piece.length = length) :
    keysOf plan pieces.flatten length = pieces.map (·.drop plan.byteIndex) := by
  rw [keysOf, length_flatten_of_lengths lengths, Nat.mul_div_cancel _ positive,
    cutKeys_flatten lengths]

/-- N-grams that have the keys of other ones, in any order, are built into the same tree. -/
theorem build_eq_ok_of_perm {plan : TreePlan} {grams : Bytes} {pieces : List Bytes}
    {length length' byteIndex : Nat} {tree : ByteTree} (built : build plan grams length = .ok tree)
    (nonempty : grams ≠ []) (inside : byteIndex < length')
    (lengths : ∀ piece ∈ pieces, piece.length = length')
    (lengths_eq : length' - byteIndex = length - plan.byteIndex)
    (perm : (keysOf plan grams length).Perm (pieces.map (·.drop byteIndex))) :
    build { plan with byteIndex } pieces.flatten length' = .ok tree := by
  rcases build_eq_ok built nonempty with ⟨whole, -, children, grown, rfl⟩
  have positive := Nat.zero_lt_of_lt inside
  have keys_eq := @keysOf_flatten { plan with byteIndex } _ _ positive lengths
  have whole' : length' ∣ pieces.flatten.length := by
    rw [length_flatten_of_lengths lengths]
    exact Nat.dvd_mul_left _ _
  have nonempty' : pieces.flatten ≠ [] := by
    intro none
    rw [none, keysOf, List.length_nil, Nat.zero_div, cutKeys, List.map_nil] at keys_eq
    rw [← keys_eq] at perm
    exact keysOf_ne_nil whole nonempty perm.eq_nil
  rw [build_eq_grow whole' nonempty' inside, keys_eq, lengths_eq, grow_of_perm perm grown]
  rfl

/-! ## Texts -/

theorem foldl_max_of_ascending {value : UInt32} {values : List UInt32}
    (ascending : (value :: values).Pairwise (· < ·)) :
    values.foldl max value = (value :: values).getLast (List.cons_ne_nil _ _) := by
  induction values generalizing value with
  | nil => rfl
  | cons next values ih =>
    rcases List.pairwise_cons.1 ascending with ⟨least, sorted⟩
    have larger : max value next = next := if_pos (UInt32.le_of_lt (least next List.mem_cons_self))
    rw [List.foldl_cons, larger, ih sorted]
    rfl

/-- The largest of ascending numbers is the last one. -/
theorem max?_of_ascending {values : List UInt32} (ascending : values.Pairwise (· < ·)) :
    values.max? = values.getLast? := by
  cases values with
  | nil => rfl
  | cons value values =>
    rw [List.max?_cons', foldl_max_of_ascending ascending, List.getLast?_eq_some_getLast]

/-- Where entries are numbered one after the other from where some texts end, their texts come behind
these. -/
theorem foldl_set_of_numbered {entries : List (Bytes × UInt32)} {texts : List (List Char)}
    (numbered : entries.map (·.2.toNat) = List.range' texts.length entries.length) :
    entries.foldl (fun texts entry => texts.set entry.2.toNat (Bytes.hex entry.1))
        (texts ++ List.replicate entries.length []) =
      texts ++ entries.map fun entry => Bytes.hex entry.1 := by
  induction entries generalizing texts with
  | nil => rfl
  | cons entry entries ih =>
    rw [List.map_cons, List.length_cons, List.range'_succ] at numbered
    rcases List.cons.inj numbered with ⟨here, behind⟩
    have next : (texts ++ [Bytes.hex entry.1]).length = texts.length + 1 := by simp
    rw [← next] at behind
    have placed : (texts ++ List.replicate (entries.length + 1) []).set entry.2.toNat
        (Bytes.hex entry.1) = texts ++ [Bytes.hex entry.1] ++ List.replicate entries.length [] := by
      rw [here, List.set_append_right _ _ (Nat.le_refl _), Nat.sub_self, List.replicate_succ,
        List.set_cons_zero, List.append_assoc]
      rfl
    rw [List.length_cons, List.foldl_cons, placed, ih behind, List.append_assoc]
    rfl

theorem toList_foldl_setIfInBounds (entries : List (Bytes × UInt32)) (texts : Array (List Char)) :
    (entries.foldl (fun texts (key, value) => texts.setIfInBounds value.toNat (Bytes.hex key))
        texts).toList =
      entries.foldl (fun texts entry => texts.set entry.2.toNat (Bytes.hex entry.1)) texts.toList :=
  (List.foldl_hom Array.toList fun _ _ => Array.toList_setIfInBounds.symm).symm

/-- A tree whose keys are numbered one after the other has empty texts before the first number, and the
texts of its keys from there on. -/
theorem gramTexts_eq {tree : ByteTree} {first : Nat} (nonempty : tree.size ≠ 0)
    (numbered : tree.values.map UInt32.toNat = List.range' first tree.size) :
    tree.gramTexts = List.replicate first [] ++ tree.keys.map Bytes.hex := by
  have ascending : tree.values.Pairwise (· < ·) := by
    have sorted : (List.range' first tree.size).Pairwise (· < ·) := List.pairwise_lt_range'
    rw [← numbered, List.pairwise_map] at sorted
    exact sorted.imp UInt32.lt_iff_toNat_lt.2
  -- There are as many texts as it takes for the last number.
  have largest := congrArg List.getLast? numbered
  rw [List.getLast?_map, ← max?_of_ascending ascending, List.getLast?_range', if_neg nonempty,
    Option.map_eq_some_iff] at largest
  rcases largest with ⟨last, max_eq, last_eq⟩
  have count : last.toNat + 1 = first + tree.size := by omega
  have placed : tree.toList.map (·.2.toNat) =
      List.range' (List.replicate first ([] : List Char)).length tree.toList.length := by
    rw [List.length_replicate]
    rw [values, List.map_map] at numbered
    exact numbered
  rw [gramTexts, max_eq]
  dsimp only
  rw [toList_foldl_setIfInBounds, Array.toList_replicate, count, List.replicate_add, size,
    foldl_set_of_numbered placed, keys, List.map_map]
  rfl

/-! ## The tree again -/

/-- A tree that is built from at least one n-gram can be taken apart and built again. Its keys, in the order
in which it lists them, give the same tree, with its tables and numbers, and so do its n-grams in any
order. As long as the numbers do not wrap, its texts are empty before the number of the first key, and
behind this they are the keys in their order, which can be read back from them. -/
theorem build_rebuilds {plan : TreePlan} {grams : Bytes} {length : Nat} {tree : ByteTree}
    (built : build plan grams length = .ok tree) (nonempty : grams ≠ []) :
    tree.keys.Pairwise (· < ·) ∧
      build { plan with byteIndex := 0 } tree.keys.flatten (length - plan.byteIndex) = .ok tree ∧
      (∀ others : List Bytes, others.Perm (cutKeys length (grams.length / length) grams) →
        build plan others.flatten length = .ok tree) ∧
      (plan.firstValue.toNat + grams.length / length ≤ 2 ^ 32 →
        tree.gramTexts = List.replicate plan.firstValue.toNat [] ++ tree.keys.map Bytes.hex ∧
        ((tree.gramTexts.drop plan.firstValue.toNat).map Bytes.ofHex?).Perm
          ((keysOf plan grams length).map some)) := by
  have outcome := outcome_build plan grams length
  rw [built] at outcome
  cases outcome with
  | empty _ none => exact absurd none nonempty
  | indexed whole _ inside _ indexes =>
    refine ⟨indexes.ascending, ?keys, fun others perm => ?grams, fun fits => ?texts⟩
    case keys =>
      have positive : 0 < length - plan.byteIndex := Nat.sub_pos_of_lt inside
      have lengths : ∀ key ∈ tree.keys, key.length = length - plan.byteIndex := fun key listed =>
        length_of_mem_keysOf whole key (indexes.perm.mem_iff.1 listed)
      refine build_eq_ok_of_perm built nonempty positive lengths rfl ?_
      simpa using indexes.perm.symm
    case grams =>
      -- The keys are cut from the n-grams one by one, so they come in the same order as these.
      have lengths : ∀ gram ∈ others, gram.length = length := fun gram listed =>
        length_of_mem_cutKeys (Nat.div_mul_cancel whole).symm gram (perm.mem_iff.1 listed)
      exact build_eq_ok_of_perm built nonempty inside lengths rfl (perm.map _).symm
    case texts =>
      have size_eq : tree.size = grams.length / length := by rw [indexes.size_eq, length_keysOf]
      have filled : tree.size ≠ 0 := by
        rw [indexes.size_eq]
        exact fun none => keysOf_ne_nil whole nonempty (List.length_eq_zero_iff.1 none)
      have numbered : tree.values.map UInt32.toNat = List.range' plan.firstValue.toNat tree.size := by
        rw [indexes.values_eq, length_keysOf, size_eq]
        exact map_toNat_numbersFrom fits
      have texts := gramTexts_eq filled numbered
      refine ⟨texts, ?_⟩
      have read : (tree.keys.map Bytes.hex).map Bytes.ofHex? = tree.keys.map some := by
        rw [List.map_map]
        exact List.map_congr_left fun key _ => Bytes.ofHex?_hex key
      rw [texts, List.drop_left' List.length_replicate, read]
      exact indexes.perm.map some

/-- Keys behind the first byte of three n-grams, which are numbered from two on. -/
theorem build_rebuilds_of_shared_byte :
    ∃ tree, build ⟨1, 2, 1⟩ [0, 7, 3, 0, 7, 1, 5, 4, 9] 3 = .ok tree ∧
      build ⟨0, 2, 1⟩ tree.keys.flatten 2 = .ok tree ∧
      build ⟨1, 2, 1⟩ [5, 4, 9, 0, 7, 1, 0, 7, 3] 3 = .ok tree ∧
      tree.gramTexts = [] :: [] :: tree.keys.map Bytes.hex ∧
      ((tree.gramTexts.drop 2).map Bytes.ofHex?).Perm [some [7, 3], some [7, 1], some [4, 9]] := by
  have succeeds : (build ⟨1, 2, 1⟩ [0, 7, 3, 0, 7, 1, 5, 4, 9] 3).isOk := by decide +kernel
  rcases exists_of_isOk succeeds with ⟨tree, built⟩
  rcases build_rebuilds built (List.cons_ne_nil _ _) with ⟨-, again, reordered, texts⟩
  rcases texts (by decide) with ⟨texts_eq, read⟩
  exact ⟨tree, built, again, reordered [[5, 4, 9], [0, 7, 1], [0, 7, 3]] (by decide), texts_eq, read⟩

end ByteTree

end GramCensus
