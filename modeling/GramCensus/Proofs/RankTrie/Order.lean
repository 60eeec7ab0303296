import Mathlib.Algebra.GroupWithZero.Nat
import Mathlib.Data.List.Basic
import GramCensus.RankTrie.Arrangement
import GramCensus.Proofs.Repeats
import GramCensus.Proofs.StableSort.Ties
import GramCensus.Proofs.Sums

/-!
# The rank order of stems

Arranging rearranges entries (`arrange_perm`). Where no stem occurs twice it brings them into rank
order (`pairwise_ranksBefore_arrange`): of two stems the one whose branch is heavier, at the first byte
that tells them apart, comes first, and of equally heavy branches the one of the smaller byte. At
every depth the stems of a branch then stand together, and no byte has two branches (`Grouped`),
which is what the layout of a trie builds on.
-/

namespace GramCensus

/-! ## Bytes and branches -/

theorem mem_allBytes (byte : UInt8) : byte ∈ allBytes :=
  List.mem_map.2 ⟨byte.toNat, List.mem_range.2 byte.toNat_lt, by simp⟩

theorem length_allBytes : allBytes.length = 256 := by
  simp [allBytes]

theorem pairwise_lt_allBytes : allBytes.Pairwise (· < ·) := by
  rw [allBytes, List.pairwise_map]
  refine List.pairwise_lt_range.imp_of_mem fun {a b} _ inRange before => ?_
  have bound : b < 256 := List.mem_range.1 inRange
  rw [UInt8.lt_iff_toNat_lt, Nat.toUInt8_eq, Nat.toUInt8_eq, UInt8.toNat_ofNat', UInt8.toNat_ofNat']
  omega

theorem nodup_allBytes : allBytes.Nodup :=
  pairwise_lt_allBytes.imp UInt8.ne_of_lt

/-- Elements that are sorted into groups by a key are still all there. -/
theorem perm_flatMap_filter {α β : Type} [BEq β] [LawfulBEq β] (key : α → β) (xs : List α)
    {keys : List β} (distinct : keys.Nodup) :
    (keys.flatMap fun k => xs.filter fun x => key x == k).Perm
      (xs.filter fun x => keys.contains (key x)) := by
  induction keys with
  | nil => simp
  | cons k keys ih =>
    rcases List.nodup_cons.1 distinct with ⟨absent, distinct⟩
    -- The elements with the first key are split off from those with one of the others.
    have split := List.filter_append_perm (fun x => key x == k)
      (xs.filter fun x => (k :: keys).contains (key x))
    refine List.Perm.trans ?_ split
    rw [List.flatMap_cons, List.filter_filter, List.filter_filter]
    have first : (xs.filter fun x => (key x == k) && (k :: keys).contains (key x)) =
        xs.filter fun x => key x == k := by
      apply List.filter_congr
      intro x _
      simp only [List.contains_cons]
      cases key x == k <;> simp
    have others : (xs.filter fun x => (!(key x == k)) && (k :: keys).contains (key x)) =
        xs.filter fun x => keys.contains (key x) := by
      apply List.filter_congr
      intro x _
      simp only [List.contains_cons]
      by_cases same : key x = k
      · simp [same, absent]
      · have differs : (key x == k) = false := by simpa using same
        simp [differs]
    rw [first, others]
    exact (ih distinct).append_left _

theorem mem_branches_iff {depth : Nat} {entries : List Entry} {branch : Branch} :
    branch ∈ branches depth entries ↔
      branch.entries = sharing depth entries branch.byte ∧ branch.entries ≠ [] ∧
        branch.weight = totalCount branch.entries := by
  rw [branches, List.mem_filterMap]
  constructor
  · rintro ⟨byte, -, found⟩
    dsimp only at found
    split at found
    case isTrue => cases found
    case isFalse nonempty =>
      cases found
      exact ⟨rfl, by simpa using nonempty, rfl⟩
  · rintro ⟨entries_eq, nonempty, weight_eq⟩
    refine ⟨branch.byte, mem_allBytes _, ?_⟩
    dsimp only
    rw [← entries_eq, if_neg (by simpa using nonempty), ← weight_eq]

theorem mem_rankedBranches_iff {depth : Nat} {entries : List Entry} {branch : Branch} :
    branch ∈ rankedBranches depth entries ↔
      branch.entries = sharing depth entries branch.byte ∧ branch.entries ≠ [] ∧
        branch.weight = totalCount branch.entries := by
  rw [rankedBranches, mem_stableSort, mem_branches_iff]

theorem pairwise_byte_branches (depth : Nat) (entries : List Entry) :
    (branches depth entries).Pairwise fun a b => a.byte < b.byte := by
  rw [branches, List.pairwise_filterMap]
  refine pairwise_lt_allBytes.imp fun {a b} before first found second found' => ?_
  dsimp only at found found'
  split at found
  · cases found
  · split at found'
    · cases found'
    · cases found
      cases found'
      exact before

/-- Branches are ranked by weight, and by byte where weights are equal. -/
theorem pairwise_rankedBranches (depth : Nat) (entries : List Entry) :
    (rankedBranches depth entries).Pairwise fun a b =>
      b.weight < a.weight ∨ a.weight = b.weight ∧ a.byte < b.byte := by
  have sorted := pairwise_stableSort_of_pairwise (fun a b : Branch => b.weight ≤ a.weight)
    (fun a b c ab bc => by simp only [decide_eq_true_eq] at ab bc ⊢; omega)
    (fun a b => by simp only [Bool.or_eq_true, decide_eq_true_eq]; omega)
    (pairwise_byte_branches depth entries)
  refine sorted.imp fun {a b} ⟨inOrder, tie⟩ => ?_
  simp only [decide_eq_true_eq] at inOrder tie
  rcases Nat.lt_or_eq_of_le inOrder with heavier | same
  · exact .inl heavier
  · exact .inr ⟨same.symm, tie (Nat.le_of_eq same.symm)⟩

theorem nodup_byte_rankedBranches (depth : Nat) (entries : List Entry) :
    ((rankedBranches depth entries).map (·.byte)).Nodup := by
  have distinct : ((branches depth entries).map (·.byte)).Nodup := by
    rw [List.nodup_iff_pairwise_ne, List.pairwise_map]
    exact (pairwise_byte_branches depth entries).imp UInt8.ne_of_lt
  exact ((stableSort_perm _ _).map _).nodup_iff.2 distinct

/-- Groups that are left out where there is nothing in them hold together what all groups hold. -/
theorem flatMap_filterMap_of_skips {α β γ : Type} {skips : α → Bool} (make : α → β)
    (parts : β → List γ) (nothing : ∀ x, skips x = true → parts (make x) = []) (xs : List α) :
    (xs.filterMap fun x => if skips x then none else some (make x)).flatMap parts =
      xs.flatMap fun x => parts (make x) := by
  induction xs with
  | nil => rfl
  | cons x xs ih =>
    rw [List.filterMap_cons, List.flatMap_cons, ← ih]
    by_cases skipped : skips x
    · simp [skipped, nothing]
    · simp [skipped]

theorem flatMap_branches (depth : Nat) (entries : List Entry) :
    (branches depth entries).flatMap (·.entries) = allBytes.flatMap (sharing depth entries) :=
  flatMap_filterMap_of_skips
    (fun byte => Branch.mk byte (sharing depth entries byte) (totalCount (sharing depth entries byte)))
    Branch.entries (fun _ empty => List.isEmpty_iff.1 empty) allBytes

theorem flatMap_rankedBranches_perm (depth : Nat) (entries : List Entry) :
    ((rankedBranches depth entries).flatMap (·.entries)).Perm entries := by
  have all : (entries.filter fun e => allBytes.contains (e.byteAt depth)) = entries := by
    apply List.filter_eq_self.2
    intro e _
    simpa using mem_allBytes (e.byteAt depth)
  calc
    ((rankedBranches depth entries).flatMap (·.entries)).Perm
        ((branches depth entries).flatMap (·.entries)) := (stableSort_perm _ _).flatMap_right _
    _ = allBytes.flatMap (sharing depth entries) := flatMap_branches depth entries
    List.Perm _ (entries.filter fun e : Entry => allBytes.contains (e.byteAt depth)) :=
      perm_flatMap_filter (Entry.byteAt depth) entries nodup_allBytes
    _ = entries := all

/-! ## Arranging groups -/

/-- Groups that are arranged one after the other keep their entries. -/
theorem arrangeInTurn_perm {arrangeGroup : List Entry → Arrangement}
    (keeps : ∀ group, (arrangeGroup group).entries.Perm group) (groups : List (List Entry)) :
    (arrangeInTurn arrangeGroup groups).entries.Perm groups.flatten := by
  induction groups with
  | nil => exact .refl _
  | cons group groups ih =>
    rw [arrangeInTurn, List.flatten_cons]
    split
    · exact (keeps group).append_right _
    · exact (keeps group).append ih

/-- Arranging rearranges entries, also where it stops at a repeated stem. -/
theorem arrange_perm (threshold remaining depth : Nat) (entries : List Entry) :
    (arrange threshold remaining depth entries).entries.Perm entries := by
  induction remaining generalizing depth entries with
  | zero => exact .refl _
  | succ remaining ih =>
    cases remaining with
    | zero =>
      rw [arrange]
      split
      · exact .refl _
      · exact flatMap_rankedBranches_perm depth entries
    | succ remaining =>
      refine (arrangeInTurn_perm (fun group => ih (depth + 1) group) _).trans ?_
      rw [← List.flatMap_def]
      exact flatMap_rankedBranches_perm depth entries

/-- The stem at which groups stop is the first that one of them stops at. -/
theorem repeated_arrangeInTurn (arrangeGroup : List Entry → Arrangement) (groups : List (List Entry)) :
    (arrangeInTurn arrangeGroup groups).repeated =
      groups.findSome? fun group => (arrangeGroup group).repeated := by
  induction groups with
  | nil => rfl
  | cons group groups ih =>
    rw [arrangeInTurn, List.findSome?_cons]
    split
    case h_1 stem found => rw [found]
    case h_2 none =>
      rw [none]
      exact ih

theorem arrangeInTurn_repeated_eq_none_iff {arrangeGroup : List Entry → Arrangement}
    {groups : List (List Entry)} :
    (arrangeInTurn arrangeGroup groups).repeated = none ↔
      ∀ group ∈ groups, (arrangeGroup group).repeated = none := by
  rw [repeated_arrangeInTurn, List.findSome?_eq_none_iff]

theorem arrangeInTurn_of_unique {arrangeGroup : List Entry → Arrangement}
    {groups : List (List Entry)} (unique : ∀ group ∈ groups, (arrangeGroup group).repeated = none) :
    arrangeInTurn arrangeGroup groups =
      { entries := groups.flatMap fun group => (arrangeGroup group).entries
        nodes := (groups.map fun group => (arrangeGroup group).nodes).sum
        slots := (groups.map fun group => (arrangeGroup group).slots).sum
        repeated := none } := by
  induction groups with
  | nil => rfl
  | cons group groups ih =>
    rcases List.forall_mem_cons.1 unique with ⟨first, others⟩
    rw [arrangeInTurn, ih others]
    simp [first]

section Unique

variable {threshold remaining depth : Nat} {entries : List Entry}

/-- Without a repeated stem, every branch is arranged in its turn; at the last byte it is a single
entry. -/
theorem arrange_succ_of_unique
    (unique : (arrange threshold (remaining + 1) depth entries).repeated = none) :
    (∀ branch ∈ rankedBranches depth entries,
      (arrange threshold remaining (depth + 1) branch.entries).repeated = none ∧
        (remaining = 0 → branch.entries.length ≤ 1)) ∧
    arrange threshold (remaining + 1) depth entries =
      let ranked := rankedBranches depth entries
      let below := fun branch : Branch =>
        arrange threshold remaining (depth + 1) branch.entries
      { entries := ranked.flatMap fun branch => (below branch).entries
        nodes := ranked.length + (ranked.map fun branch => (below branch).nodes).sum
        slots := segmentLength threshold ranked.length +
          (ranked.map fun branch => (below branch).slots).sum
        repeated := none } := by
  cases remaining with
  | zero =>
    rw [arrange] at unique ⊢
    split at unique
    case h_1 branch found =>
      -- A branch of several entries would have been reported.
      have several : 1 < branch.entries.length := by simpa using List.find?_some found
      have head := List.head?_eq_none_iff.1 (Option.map_eq_none_iff.1 unique)
      rw [head] at several
      exact absurd several (Nat.not_lt_zero _)
    case h_2 found =>
      refine ⟨fun branch ranked => ⟨rfl, fun _ => ?_⟩, ?_⟩
      · have single := List.find?_eq_none.1 found branch ranked
        simpa using single
      · simp [arrange, List.map_const']
  | succ remaining =>
    have each := arrangeInTurn_repeated_eq_none_iff.1 unique
    refine ⟨fun branch ranked => ⟨each _ (List.mem_map_of_mem ranked), fun last => ?_⟩, ?_⟩
    · cases last
    · rw [arrange, arrangeInTurn_of_unique each]
      · simp [List.flatMap_map, Function.comp_def]
      · intro last
        cases last

end Unique

/-! ## Rank order -/

/-- The entries whose n-grams begin with some bytes. -/
def beginning (entries : List Entry) (start : Bytes) : List Entry :=
  entries.filter fun e => start.isPrefixOf e.gram

/-- The total count of the entries whose n-grams begin with some bytes. -/
def weight (entries : List Entry) (start : Bytes) : Nat :=
  totalCount (beginning entries start)

/-- One stem has a better rank than another among some entries: at the first byte that tells them
apart its branch is heavier, or equally heavy and its byte is smaller. -/
def RanksBefore (entries : List Entry) (first second : Bytes) : Prop :=
  ∃ shared a b restFirst restSecond,
    first = shared ++ a :: restFirst ∧ second = shared ++ b :: restSecond ∧
      (weight entries (shared ++ [b]) < weight entries (shared ++ [a]) ∨
        weight entries (shared ++ [a]) = weight entries (shared ++ [b]) ∧ a < b)

theorem mem_beginning {entries : List Entry} {start : Bytes} {e : Entry} :
    e ∈ beginning entries start ↔ e ∈ entries ∧ start <+: e.gram := by
  rw [beginning, List.mem_filter, List.isPrefixOf_iff_prefix]

theorem beginning_nil (entries : List Entry) : beginning entries [] = entries := by
  simp [beginning]

/-- Where two stems that begin alike go on differently tells which ranks before the other. -/
private theorem shared_eq_of_append_eq {shared shared' : Bytes} {a b c d : UInt8}
    {restFirst restSecond restFirst' restSecond' : Bytes}
    (first : shared ++ a :: restFirst = shared' ++ c :: restFirst')
    (second : shared ++ b :: restSecond = shared' ++ d :: restSecond')
    (differ : a ≠ b) (differ' : c ≠ d) : shared = shared' ∧ a = c ∧ b = d := by
  induction shared generalizing shared' with
  | nil =>
    cases shared' with
    | nil =>
      simp only [List.nil_append, List.cons.injEq] at first second
      exact ⟨rfl, first.1, second.1⟩
    | cons byte shared' =>
      simp only [List.nil_append, List.cons_append, List.cons.injEq] at first second
      -- One pair would part at a byte that the other pair shares.
      exact absurd (first.1.trans second.1.symm) differ
  | cons byte shared ih =>
    cases shared' with
    | nil =>
      simp only [List.nil_append, List.cons_append, List.cons.injEq] at first second
      exact absurd (first.1.symm.trans second.1) differ'
    | cons byte' shared' =>
      simp only [List.cons_append, List.cons.injEq] at first second
      rcases ih first.2 second.2 with ⟨same, rest⟩
      exact ⟨by rw [first.1, same], rest⟩

/-- Branches of one byte do not rank before each other. -/
private theorem ne_of_ranked {entries : List Entry} {shared : Bytes} {a b : UInt8}
    (order : weight entries (shared ++ [b]) < weight entries (shared ++ [a]) ∨
      weight entries (shared ++ [a]) = weight entries (shared ++ [b]) ∧ a < b) : a ≠ b := by
  rintro rfl
  rcases order with heavier | ⟨-, smaller⟩
  · exact Nat.lt_irrefl _ heavier
  · exact UInt8.lt_irrefl _ smaller

/-- Which of two stems ranks before the other is decided at the first byte that tells them apart. -/
theorem ranksBefore_iff {entries : List Entry} {shared : Bytes} {a b : UInt8}
    {restFirst restSecond : Bytes} (differ : a ≠ b) :
    RanksBefore entries (shared ++ a :: restFirst) (shared ++ b :: restSecond) ↔
      weight entries (shared ++ [b]) < weight entries (shared ++ [a]) ∨
        weight entries (shared ++ [a]) = weight entries (shared ++ [b]) ∧ a < b := by
  constructor
  · rintro ⟨shared', c, d, _, _, first_eq, second_eq, order⟩
    obtain ⟨rfl, rfl, rfl⟩ :=
      shared_eq_of_append_eq first_eq second_eq differ (ne_of_ranked order)
    exact order
  · intro order
    exact ⟨shared, a, b, restFirst, restSecond, rfl, rfl, order⟩

/-- Weights do not depend on the order of the entries. -/
theorem weight_of_perm {entries others : List Entry} (perm : others.Perm entries) (start : Bytes) :
    weight others start = weight entries start := by
  rw [weight, weight, totalCount, totalCount, sumOf_eq_sum, sumOf_eq_sum, beginning, beginning]
  exact ((perm.filter _).map _).sum_nat

theorem RanksBefore.of_perm {entries others : List Entry} (perm : others.Perm entries)
    {first second : Bytes} (before : RanksBefore others first second) :
    RanksBefore entries first second := by
  rcases before with ⟨shared, a, b, restFirst, restSecond, first_eq, second_eq, order⟩
  rw [weight_of_perm perm, weight_of_perm perm] at order
  exact ⟨shared, a, b, restFirst, restSecond, first_eq, second_eq, order⟩

theorem RanksBefore.asymm {entries : List Entry} {first second : Bytes}
    (before : RanksBefore entries first second) : ¬ RanksBefore entries second first := by
  rintro ⟨shared', c, d, _, _, second_eq', first_eq', order'⟩
  rcases before with ⟨shared, a, b, _, _, first_eq, second_eq, order⟩
  -- Both orders are decided at the same byte, as the two stems part only once.
  have differ : a ≠ b := ne_of_ranked order
  have differ' : d ≠ c := (ne_of_ranked order').symm
  obtain ⟨rfl, rfl, rfl⟩ := shared_eq_of_append_eq (first_eq.symm.trans first_eq')
    (second_eq.symm.trans second_eq') differ differ'
  rcases order with heavier | ⟨same, smaller⟩
  · rcases order' with heavier' | ⟨same', -⟩
    · omega
    · omega
  · rcases order' with heavier' | ⟨-, smaller'⟩
    · omega
    · exact UInt8.lt_irrefl _ (UInt8.lt_trans smaller smaller')

theorem RanksBefore.irrefl {entries : List Entry} (stem : Bytes) : ¬ RanksBefore entries stem stem :=
  fun before => before.asymm before

/-- The byte at a depth splits the entries that begin alike up to it. -/
theorem sharing_beginning {entries : List Entry} (shared : Bytes)
    (long : ∀ e ∈ entries, shared.length < e.gram.length) (byte : UInt8) :
    sharing shared.length (beginning entries shared) byte = beginning entries (shared ++ [byte]) := by
  rw [sharing, beginning, beginning, List.filter_filter]
  apply List.filter_congr
  intro e member
  have long := long e member
  rw [Bool.eq_iff_iff, Bool.and_eq_true, beq_iff_eq, List.isPrefixOf_iff_prefix,
    List.isPrefixOf_iff_prefix, Entry.byteAt]
  constructor
  · rintro ⟨same, rest, gram_eq⟩
    rw [← gram_eq] at same long ⊢
    cases rest with
    | nil => simp at long
    | cons next rest =>
      have same : next = byte := by simpa using same
      exact ⟨rest, by simp [same]⟩
  · rintro ⟨rest, gram_eq⟩
    rw [← gram_eq]
    exact ⟨by simp, ⟨byte :: rest, by simp⟩⟩

section Arranged

variable {threshold remaining : Nat} {all : List Entry} {shared : Bytes}

theorem branch_entries_eq (long : ∀ e ∈ all, e.gram.length = shared.length + (remaining + 1))
    {branch : Branch} (ranked : branch ∈ rankedBranches shared.length (beginning all shared)) :
    branch.entries = beginning all (shared ++ [branch.byte]) ∧
      branch.weight = weight all (shared ++ [branch.byte]) := by
  rcases mem_rankedBranches_iff.1 ranked with ⟨entries_eq, -, weight_eq⟩
  have split := sharing_beginning shared
    (fun e member => by rw [long e member]; omega) branch.byte
  rw [split] at entries_eq
  exact ⟨entries_eq, by rw [weight_eq, entries_eq, weight]⟩

/-- Two branches part at their byte, whatever stems they hold. -/
theorem pairwise_ranksBefore_branches
    (long : ∀ e ∈ all, e.gram.length = shared.length + (remaining + 1)) :
    (rankedBranches shared.length (beginning all shared)).Pairwise
      fun a b => ∀ x ∈ a.entries, ∀ y ∈ b.entries, RanksBefore all x.gram y.gram := by
  refine (pairwise_rankedBranches _ _).imp_of_mem fun {a b} rankedA rankedB order => ?_
  rcases branch_entries_eq long rankedA with ⟨entriesA, weightA⟩
  rcases branch_entries_eq long rankedB with ⟨entriesB, weightB⟩
  intro x inA y inB
  rw [entriesA, mem_beginning] at inA
  rw [entriesB, mem_beginning] at inB
  rcases inA with ⟨-, restX, gramX⟩
  rcases inB with ⟨-, restY, gramY⟩
  rw [weightA, weightB] at order
  exact ⟨shared, a.byte, b.byte, restX, restY, by simp [← gramX], by simp [← gramY], order⟩

/-- Arranged entries stand in rank order. -/
theorem pairwise_ranksBefore_arrange
    (long : ∀ e ∈ all, e.gram.length = shared.length + remaining)
    (single : remaining = 0 → (beginning all shared).length ≤ 1)
    (unique : (arrange threshold remaining shared.length (beginning all shared)).repeated = none) :
    (arrange threshold remaining shared.length (beginning all shared)).entries.Pairwise
      fun a b => RanksBefore all a.gram b.gram := by
  induction remaining generalizing shared with
  | zero =>
    rw [arrange]
    have short := single rfl
    rcases entries_eq : beginning all shared with _ | ⟨e, _ | ⟨other, rest⟩⟩
    · exact .nil
    · exact List.pairwise_singleton _ e
    · simp [entries_eq] at short
  | succ remaining ih =>
    rcases arrange_succ_of_unique unique with ⟨each, arranged⟩
    rw [arranged, List.pairwise_flatMap]
    constructor
    · -- Within a branch one more byte is shared.
      intro branch ranked
      rcases branch_entries_eq long ranked with ⟨entries_eq, -⟩
      rcases each branch ranked with ⟨uniqueBelow, singleBelow⟩
      dsimp only
      rw [entries_eq] at uniqueBelow singleBelow ⊢
      have deeper : shared.length + 1 = (shared ++ [branch.byte]).length := by simp
      rw [deeper] at uniqueBelow ⊢
      refine ih (fun e member => ?_) singleBelow uniqueBelow
      rw [long e member, List.length_append, List.length_singleton]
      omega
    · refine (pairwise_ranksBefore_branches long).imp fun {a b} order x inA y inB => ?_
      exact order x ((arrange_perm _ _ _ _).mem_iff.1 inA) y ((arrange_perm _ _ _ _).mem_iff.1 inB)

/-- The branches of some entries are searched for a repeated stem one after the other, in rank order. -/
theorem findsRepeated_of_branches (long : ∀ e ∈ all, e.gram.length = shared.length + (remaining + 1))
    {find : Branch → Option Bytes}
    (each : ∀ branch ∈ rankedBranches shared.length (beginning all shared),
      FindsRepeated (RanksBefore all) (branch.entries.map (·.gram)) (find branch)) :
    FindsRepeated (RanksBefore all) ((beginning all shared).map (·.gram))
      ((rankedBranches shared.length (beginning all shared)).findSome? find) := by
  have perm := (flatMap_rankedBranches_perm shared.length (beginning all shared)).map (·.gram)
  rw [List.map_flatMap] at perm
  refine (FindsRepeated.findSome? RanksBefore.irrefl each ?_).of_perm perm
  exact (pairwise_ranksBefore_branches long).imp fun order => by simpa using order

/-- Arranging stops at the first stem in rank order that occurs twice, and at nothing else. -/
theorem finds_arrange (long : ∀ e ∈ all, e.gram.length = shared.length + (remaining + 1)) :
    FindsRepeated (RanksBefore all) ((beginning all shared).map (·.gram))
      (arrange threshold (remaining + 1) shared.length (beginning all shared)).repeated := by
  induction remaining generalizing shared with
  | zero =>
    -- At the last byte all stems of a branch are the same one.
    have alike : ∀ branch ∈ rankedBranches shared.length (beginning all shared),
        ∀ stem ∈ branch.entries.map (·.gram), stem = shared ++ [branch.byte] := by
      intro branch listed stem member
      rcases List.mem_map.1 member with ⟨e, inBranch, rfl⟩
      rw [(branch_entries_eq long listed).1, mem_beginning] at inBranch
      exact (inBranch.2.eq_of_length (by rw [long e inBranch.1]; simp)).symm
    have finds := findsRepeated_of_branches long fun branch listed => .of_alike (alike branch listed)
    simp only [List.length_map, findSome?_ite] at finds
    rw [arrange]
    split
    case h_1 branch found =>
      have several : 1 < branch.entries.length := by simpa using List.find?_some found
      rcases List.exists_cons_of_length_pos (Nat.zero_lt_of_lt several) with ⟨e, rest, entries_eq⟩
      have stem := alike branch (List.mem_of_find?_eq_some found) e.gram (by simp [entries_eq])
      rw [found, Option.map_some, ← stem] at finds
      rw [entries_eq]
      exact finds
    case h_2 none => rwa [none] at finds
  | succ remaining ih =>
    rw [arrange, repeated_arrangeInTurn, List.findSome?_map]
    · refine findsRepeated_of_branches long fun branch ranked => ?_
      -- Within a branch one more byte is shared.
      have deeper : shared.length + 1 = (shared ++ [branch.byte]).length := by simp
      rw [Function.comp_apply, (branch_entries_eq long ranked).1, deeper]
      refine ih fun e member => ?_
      rw [long e member, List.length_append, List.length_singleton]
      omega
    · intro last
      cases last

/-- Stems that are all different are arranged to the end. -/
theorem repeated_arrange_eq_none
    (long : ∀ e ∈ all, e.gram.length = shared.length + remaining)
    (distinct : (all.map (·.gram)).Nodup) :
    (arrange threshold remaining shared.length (beginning all shared)).repeated = none := by
  cases remaining with
  | zero => rfl
  | succ remaining =>
    refine (finds_arrange long).eq_none_iff.2 ?_
    exact distinct.sublist ((List.filter_sublist ..).map _)

end Arranged

/-! ## Grouping -/

/-- Groups of stems that go on with the same byte, behind this byte. -/
def groupedStems (groups : List (UInt8 × List Bytes)) : List Bytes :=
  groups.flatMap fun group => group.2.map (group.1 :: ·)

/-- What is left of some stems, `remaining` bytes each, is grouped if at every depth the stems that go
on with the same byte stand together, and no stem occurs twice. -/
def Grouped : (remaining : Nat) → List Bytes → Prop
  | 0, tails => tails = [[]]
  | remaining + 1, tails =>
    ∃ groups : List (UInt8 × List Bytes),
      tails = groups.flatMap (fun group => group.2.map (group.1 :: ·)) ∧ groups ≠ [] ∧
        (groups.map (·.1)).Nodup ∧ ∀ group ∈ groups, Grouped remaining group.2

theorem Grouped.ne_nil {remaining : Nat} {tails : List Bytes} (grouped : Grouped remaining tails) :
    tails ≠ [] := by
  induction remaining generalizing tails with
  | zero =>
    rw [grouped]
    simp
  | succ remaining ih =>
    rcases grouped with ⟨groups, rfl, nonempty, -, each⟩
    rcases List.exists_cons_of_ne_nil nonempty with ⟨group, groups, rfl⟩
    have below := ih (each group (by simp))
    simp [below]

theorem Grouped.length_eq {remaining : Nat} {tails : List Bytes} (grouped : Grouped remaining tails)
    {tail : Bytes} (member : tail ∈ tails) : tail.length = remaining := by
  induction remaining generalizing tails tail with
  | zero =>
    rw [grouped, List.mem_singleton] at member
    rw [member]
    rfl
  | succ remaining ih =>
    rcases grouped with ⟨groups, rfl, -, -, each⟩
    rcases List.mem_flatMap.1 member with ⟨group, listed, inside⟩
    rcases List.mem_map.1 inside with ⟨rest, held, rfl⟩
    rw [List.length_cons, ih (each group listed) held]

/-- The bytes of the branches of some entries, with what is left of their stems once they are
arranged. -/
def arrangedGroups (threshold remaining depth : Nat) (entries : List Entry) :
    List (UInt8 × List Bytes) :=
  (rankedBranches depth entries).map fun branch => (branch.byte,
    (arrange threshold remaining (depth + 1) branch.entries).entries.map
      fun e => e.gram.drop (depth + 1))

section ArrangedGroups

variable {threshold remaining depth : Nat} {entries : List Entry}

theorem nodup_byte_arrangedGroups :
    ((arrangedGroups threshold remaining depth entries).map (·.1)).Nodup := by
  rw [arrangedGroups, List.map_map]
  exact nodup_byte_rankedBranches depth entries

/-- Arranged stems go on with the bytes of the branches, group by group. -/
theorem flatMap_arrangedGroups (long : ∀ e ∈ entries, depth < e.gram.length)
    (unique : (arrange threshold (remaining + 1) depth entries).repeated = none) :
    ((arrange threshold (remaining + 1) depth entries).entries.map fun e => e.gram.drop depth) =
      (arrangedGroups threshold remaining depth entries).flatMap
        fun group => group.2.map (group.1 :: ·) := by
  rw [(arrange_succ_of_unique unique).2, arrangedGroups, List.flatMap_map, List.map_flatMap]
  apply List.flatMap_congr
  intro branch ranked
  rw [List.map_map]
  apply List.map_congr_left
  intro e member
  rw [(arrange_perm _ _ _ _).mem_iff, (mem_rankedBranches_iff.1 ranked).1, sharing,
    List.mem_filter] at member
  have fits := long e member.1
  have same : e.gram[depth] = branch.byte := by
    simpa [Entry.byteAt, fits] using member.2
  rw [List.drop_eq_getElem_cons fits, same]
  rfl

end ArrangedGroups

theorem grouped_arrange {threshold remaining depth : Nat} {entries : List Entry}
    (long : ∀ e ∈ entries, e.gram.length = depth + remaining) (nonempty : entries ≠ [])
    (single : remaining = 0 → entries.length ≤ 1)
    (unique : (arrange threshold remaining depth entries).repeated = none) :
    Grouped remaining ((arrange threshold remaining depth entries).entries.map
      fun e => e.gram.drop depth) := by
  induction remaining generalizing depth entries with
  | zero =>
    have one := single rfl
    rcases entries with _ | ⟨e, _ | ⟨other, rest⟩⟩
    · cases nonempty rfl
    · have short : e.gram.length ≤ depth := Nat.le_of_eq (long e (by simp))
      simp [arrange, Grouped, List.drop_eq_nil_of_le short]
    · simp at one
  | succ remaining ih =>
    have deep : ∀ e ∈ entries, depth < e.gram.length := by
      intro e member
      rw [long e member]
      omega
    refine ⟨arrangedGroups threshold remaining depth entries, flatMap_arrangedGroups deep unique, ?_,
      nodup_byte_arrangedGroups, ?_⟩
    · intro empty
      have all := (flatMap_rankedBranches_perm depth entries).length_eq
      rw [List.map_eq_nil_iff.1 empty, List.flatMap_nil, List.length_nil] at all
      exact nonempty (List.length_eq_zero_iff.1 all.symm)
    · intro group listed
      rcases List.mem_map.1 listed with ⟨branch, ranked, rfl⟩
      rcases (arrange_succ_of_unique unique).1 branch ranked with ⟨uniqueBelow, singleBelow⟩
      rcases mem_rankedBranches_iff.1 ranked with ⟨entries_eq, nonemptyBelow, -⟩
      refine ih (fun e member => ?_) nonemptyBelow singleBelow uniqueBelow
      have wide := long e (mem_of_mem_rankedBranches ranked member)
      omega

end GramCensus
