import Mathlib.Data.List.Perm.Subperm
import GramCensus.Proofs.Tally.Cutoff
import GramCensus.Tally.Selection

/-!
# What is selected

A selection takes, from candidates in some order, the `k` most frequent of those that were met more
than once; of equally frequent ones it takes the first, and it leaves all in their order
(`Selection`). There is one such selection only (`Selection.unique`). What a cutoff admits with what
is left of `k` as the budget at the cutoff itself is this selection (`Admits.selection`).
-/

namespace GramCensus

variable {α β : Type} {frequency : α → Nat} {k : Nat} {candidates selected : List α}

/-! ## Selections -/

/-- The `k` most frequent candidates of those with a frequency of two or more, in the order of the
candidates. Equally frequent candidates are taken from the first on. -/
structure Selection (frequency : α → Nat) (k : Nat) (candidates selected : List α) : Prop where
  sublist : selected.Sublist candidates
  repeated : ∀ x ∈ selected, 2 ≤ frequency x
  length_eq : selected.length = min k (candidates.countP fun x => 2 ≤ frequency x)
  preferred : ∀ x ∈ selected, ∀ y ∈ candidates, y ∉ selected → 2 ≤ frequency y →
    frequency y < frequency x ∨ frequency y = frequency x ∧ [x, y].Sublist candidates

namespace Selection

/-- Where a candidate was met twice and yet is not selected, `k` others were met as often. -/
theorem full_of_not_mem (selection : Selection frequency k candidates selected) {y : α}
    (candidate : y ∈ candidates) (twice : 2 ≤ frequency y) (out : y ∉ selected) :
    selected.length = k ∧ ∀ x ∈ selected, frequency y ≤ frequency x := by
  constructor
  · -- The selected candidates are not all of those met twice, so there are `k` of them.
    have inside : selected.Sublist (candidates.filter fun x => 2 ≤ frequency x) := by
      rw [List.sublist_filter_iff]
      exact ⟨selected, selection.sublist, (List.filter_eq_self.2 fun x member =>
        decide_eq_true (selection.repeated x member)).symm⟩
    have fewer : selected.length < candidates.countP fun x => 2 ≤ frequency x := by
      rw [List.countP_eq_length_filter]
      apply Nat.lt_of_le_of_ne inside.length_le
      intro same
      apply out
      rw [inside.eq_of_length same]
      exact List.mem_filter.2 ⟨candidate, decide_eq_true twice⟩
    have length_eq := selection.length_eq
    omega
  · intro x member
    rcases selection.preferred x member y candidate out twice with less | ⟨same, -⟩
    · exact Nat.le_of_lt less
    · exact Nat.le_of_eq same

theorem of_filter {p : α → Bool} (met : ∀ x ∈ candidates, 2 ≤ frequency x → p x = true)
    (selection : Selection frequency k (candidates.filter p) selected) :
    Selection frequency k candidates selected where
  sublist := selection.sublist.trans List.filter_sublist
  repeated := selection.repeated
  length_eq := by
    rw [selection.length_eq, List.countP_filter]
    congr 1
    apply List.countP_congr
    intro x member
    simpa using met x member
  preferred := by
    intro x member y candidate out twice
    have kept : y ∈ candidates.filter p := List.mem_filter.2 ⟨candidate, met y candidate twice⟩
    rcases selection.preferred x member y kept out twice with less | ⟨same, before⟩
    · exact .inl less
    · exact .inr ⟨same, before.trans List.filter_sublist⟩

/-- A selection may be named otherwise. -/
theorem map {name : α → β} {named : β → Nat}
    (agree : ∀ x ∈ candidates, named (name x) = frequency x)
    (selection : Selection frequency k candidates selected) :
    Selection named k (candidates.map name) (selected.map name) where
  sublist := selection.sublist.map name
  repeated := by
    intro z member
    rcases List.mem_map.1 member with ⟨x, chosen, rfl⟩
    rw [agree x (selection.sublist.subset chosen)]
    exact selection.repeated x chosen
  length_eq := by
    rw [List.length_map, selection.length_eq, List.countP_map]
    congr 1
    apply List.countP_congr
    intro x member
    simp [agree x member]
  preferred := by
    intro z member w candidate out twice
    rcases List.mem_map.1 member with ⟨x, chosen, rfl⟩
    rcases List.mem_map.1 candidate with ⟨y, listed, rfl⟩
    rw [agree y listed] at twice ⊢
    rw [agree x (selection.sublist.subset chosen)]
    have left : y ∉ selected := fun taken => out (List.mem_map_of_mem taken)
    rcases selection.preferred x chosen y listed left twice with less | ⟨same, before⟩
    · exact .inl less
    · exact .inr ⟨same, before.map name⟩

/-- In a list without repetitions no two elements stand before each other. -/
private theorem not_before_of_before {xs : List α} (distinct : xs.Nodup) {x y : α}
    (before : [x, y].Sublist xs) : ¬ [y, x].Sublist xs := by
  induction xs with
  | nil => cases before
  | cons z rest ih =>
    rcases List.nodup_cons.1 distinct with ⟨new, later⟩
    intro after
    cases before with
    | cons _ before =>
      cases after with
      | cons _ after => exact ih later before after
      | cons_cons _ _ => exact new (before.subset (by simp))
    | cons_cons _ first =>
      cases after with
      | cons _ after => exact new (after.subset (by simp))
      | cons_cons _ _ => exact new (List.singleton_sublist.1 first)

/-- What is selected once is selected again. -/
private theorem subset_of_selection (distinct : candidates.Nodup) {others : List α}
    (selection : Selection frequency k candidates selected)
    (other : Selection frequency k candidates others) : selected ⊆ others := by
  intro x member
  apply Classical.byContradiction
  intro out
  have length_eq : others.length = selected.length := other.length_eq.trans selection.length_eq.symm
  -- As both have one length, something is selected in place of `x`.
  have instead : ∃ y ∈ others, y ∉ selected := by
    refine Classical.byContradiction fun none => out ?_
    have inside : others ⊆ selected := fun y taken =>
      Classical.byContradiction fun missing => none ⟨y, taken, missing⟩
    have same := (List.subperm_of_subset (distinct.sublist other.sublist) inside).perm_of_length_le
      (Nat.le_of_eq length_eq.symm)
    exact same.mem_iff.2 member
  rcases instead with ⟨y, taken, missing⟩
  have first := selection.preferred x member y (other.sublist.subset taken) missing
    (other.repeated y taken)
  have second := other.preferred y taken x (selection.sublist.subset member) out
    (selection.repeated x member)
  rcases first with less | ⟨same, before⟩
  · rcases second with more | ⟨same, -⟩ <;> omega
  · rcases second with more | ⟨-, after⟩
    · omega
    · exact not_before_of_before distinct before after

theorem unique (distinct : candidates.Nodup) {others : List α}
    (selection : Selection frequency k candidates selected)
    (other : Selection frequency k candidates others) : selected = others := by
  apply (distinct.perm_iff_eq_of_sublist selection.sublist other.sublist).1
  rw [List.perm_ext_iff_of_nodup (distinct.sublist selection.sublist)
    (distinct.sublist other.sublist)]
  intro x
  constructor
  · exact fun member => subset_of_selection distinct selection other member
  · exact fun taken => subset_of_selection distinct other selection taken

/-- What is selected are the first `k` of those met more than once, sorted by falling frequency and
equally frequent ones in the order of the candidates. -/
theorem perm_take (distinct : candidates.Nodup)
    (selection : Selection frequency k candidates selected) {sorted : List α}
    (perm : sorted.Perm (candidates.filter fun x => 2 ≤ frequency x))
    (ordered : sorted.Pairwise fun x y =>
      frequency y < frequency x ∨ frequency y = frequency x ∧ ¬ [y, x].Sublist candidates) :
    selected.Perm (sorted.take k) := by
  have different : selected.Nodup := distinct.sublist selection.sublist
  have differentSorted : (sorted.take k).Nodup :=
    (perm.nodup_iff.2 (distinct.filter _)).sublist (List.take_sublist _ _)
  have length_eq : (sorted.take k).length = selected.length := by
    rw [List.length_take, perm.length_eq, ← List.countP_eq_length_filter, selection.length_eq]
  -- As both have one length, it is enough that the first of the sorted ones are selected.
  have inside : sorted.take k ⊆ selected := by
    intro y first
    apply Classical.byContradiction
    intro out
    obtain ⟨x, member, late⟩ : ∃ x ∈ selected, x ∉ sorted.take k := by
      refine Classical.byContradiction fun none => out ?_
      have covered : selected ⊆ sorted.take k := fun x member =>
        Classical.byContradiction fun missing => none ⟨x, member, missing⟩
      exact ((List.subperm_of_subset different covered).perm_of_length_le
        (Nat.le_of_eq length_eq)).mem_iff.2 first
    have listed : x ∈ sorted := perm.mem_iff.2 (List.mem_filter.2
      ⟨selection.sublist.subset member, decide_eq_true (selection.repeated x member)⟩)
    rcases List.mem_filter.1 (perm.mem_iff.1 (List.mem_of_mem_take first)) with ⟨candidate, twice⟩
    rw [← List.take_append_drop k sorted] at listed ordered
    have behind : x ∈ sorted.drop k := (List.mem_append.1 listed).resolve_left late
    have before := (List.pairwise_append.1 ordered).2.2 y first x behind
    rcases selection.preferred x member y candidate out (of_decide_eq_true twice) with
      less | ⟨same, sooner⟩
    · rcases before with more | ⟨equal, -⟩ <;> omega
    · rcases before with more | ⟨-, notSooner⟩
      · omega
      · exact notSooner sooner
  exact ((List.subperm_of_subset differentSorted inside).perm_of_length_le
    (Nat.le_of_eq length_eq.symm)).symm

end Selection

/-! ## What a cutoff admits -/

/-- What is admitted of some slots above `least` and, up to a budget, at `least`. -/
inductive Admits (least : UInt32) : (budget : Nat) → (slots admitted : List (Nat × UInt32)) → Prop
  | nil {budget : Nat} : Admits least budget [] []
  | larger {budget : Nat} {slot : Nat × UInt32} {rest taken : List (Nat × UInt32)} :
      least < slot.2 → Admits least budget rest taken →
        Admits least budget (slot :: rest) (slot :: taken)
  | spent {slot : Nat × UInt32} {rest taken : List (Nat × UInt32)} :
      slot.2 = least → Admits least 0 rest taken → Admits least 0 (slot :: rest) taken
  | tied {left : Nat} {slot : Nat × UInt32} {rest taken : List (Nat × UInt32)} :
      slot.2 = least → Admits least left rest taken →
        Admits least (left + 1) (slot :: rest) (slot :: taken)
  | smaller {budget : Nat} {slot : Nat × UInt32} {rest taken : List (Nat × UInt32)} :
      slot.2 < least → Admits least budget rest taken → Admits least budget (slot :: rest) taken

theorem admits_admitOnto (least : UInt32) (budget : Nat) (taken slots : List (Nat × UInt32)) :
    ∃ more, admitOnto least budget taken slots = taken.reverse ++ more ∧
      Admits least budget slots more := by
  induction slots generalizing budget taken with
  | nil => exact ⟨[], (List.append_nil _).symm, .nil⟩
  | cons slot rest ih =>
    rcases slot with ⟨slot, count⟩
    unfold admitOnto
    split
    case isTrue above =>
      rcases ih budget ((slot, count) :: taken) with ⟨more, joined, admits⟩
      exact ⟨(slot, count) :: more, by simpa using joined, .larger above admits⟩
    case isFalse notLarger =>
      split
      case isTrue same =>
        cases budget with
        | zero =>
          rcases ih 0 taken with ⟨more, joined, admits⟩
          exact ⟨more, joined, .spent same admits⟩
        | succ left =>
          rcases ih left ((slot, count) :: taken) with ⟨more, joined, admits⟩
          exact ⟨(slot, count) :: more, by simpa using joined, .tied same admits⟩
      case isFalse other =>
        rcases ih budget taken with ⟨more, joined, admits⟩
        have below : count < least :=
          UInt32.lt_of_le_of_ne (UInt32.not_lt.1 notLarger) other
        exact ⟨more, joined, .smaller below admits⟩

theorem admits_admitted (least : UInt32) (budget : Nat) (slots : List (Nat × UInt32)) :
    Admits least budget slots (admitted least budget slots) := by
  rcases admits_admitOnto least budget [] slots with ⟨more, joined, admits⟩
  rwa [admitted, joined]

namespace Admits

variable {least : UInt32} {budget : Nat} {slots admitted : List (Nat × UInt32)}

theorem sublist (admits : Admits least budget slots admitted) : admitted.Sublist slots := by
  induction admits with
  | nil => exact .slnil
  | larger _ _ ih => exact ih.cons_cons _
  | spent _ _ ih => exact ih.cons _
  | tied _ _ ih => exact ih.cons_cons _
  | smaller _ _ ih => exact ih.cons _

theorem le_of_mem (admits : Admits least budget slots admitted) {x : Nat × UInt32}
    (member : x ∈ admitted) : least ≤ x.2 := by
  induction admits with
  | nil => cases member
  | larger above _ ih =>
    rcases List.mem_cons.1 member with rfl | later
    · exact UInt32.le_of_lt above
    · exact ih later
  | spent _ _ ih => exact ih member
  | tied same _ ih =>
    rcases List.mem_cons.1 member with rfl | later
    · exact UInt32.le_of_eq same.symm
    · exact ih later
  | smaller _ _ ih => exact ih member

theorem lt_of_mem (admits : Admits least 0 slots admitted) {x : Nat × UInt32}
    (member : x ∈ admitted) : least < x.2 := by
  generalize spent : 0 = budget at admits
  induction admits with
  | nil => cases member
  | larger above _ ih =>
    rcases List.mem_cons.1 member with rfl | later
    · exact above
    · exact ih later spent
  | spent _ _ ih => exact ih member spent
  | tied _ _ _ => cases spent
  | smaller _ _ ih => exact ih member spent

theorem mem_of_lt (admits : Admits least budget slots admitted) {y : Nat × UInt32}
    (listed : y ∈ slots) (larger : least < y.2) : y ∈ admitted := by
  induction admits with
  | nil => cases listed
  | larger _ _ ih =>
    rcases List.mem_cons.1 listed with rfl | later
    · exact List.mem_cons_self
    · exact List.mem_cons_of_mem _ (ih later)
  | spent same _ ih =>
    rcases List.mem_cons.1 listed with rfl | later
    · exact absurd same (UInt32.ne_of_lt larger).symm
    · exact ih later
  | tied _ _ ih =>
    rcases List.mem_cons.1 listed with rfl | later
    · exact List.mem_cons_self
    · exact List.mem_cons_of_mem _ (ih later)
  | smaller below _ ih =>
    rcases List.mem_cons.1 listed with rfl | later
    · exact absurd larger (UInt32.lt_asymm below)
    · exact ih later

/-- Of the slots at the least count the first ones are admitted. -/
theorem before_of_tied (admits : Admits least budget slots admitted) {x y : Nat × UInt32}
    (member : x ∈ admitted) (atLeast : x.2 = least) (listed : y ∈ slots) (tied : y.2 = least)
    (out : y ∉ admitted) : [x, y].Sublist slots := by
  -- The induction is on the slots; a budget is spent on the first slots at the least count.
  induction admits with
  | nil => cases member
  | larger above _ ih =>
    rcases List.mem_cons.1 member with rfl | taken
    · exact absurd atLeast.symm (UInt32.ne_of_lt above)
    rcases List.mem_cons.1 listed with rfl | later
    · exact absurd List.mem_cons_self out
    · exact (ih taken later fun inside => out (List.mem_cons_of_mem _ inside)).cons _
  | spent _ admits _ => exact absurd atLeast.symm (UInt32.ne_of_lt (admits.lt_of_mem member))
  | tied _ _ ih =>
    rcases List.mem_cons.1 listed with rfl | later
    · exact absurd List.mem_cons_self out
    rcases List.mem_cons.1 member with rfl | taken
    · exact (List.singleton_sublist.2 later).cons_cons _
    · exact (ih taken later fun inside => out (List.mem_cons_of_mem _ inside)).cons _
  | smaller below _ ih =>
    rcases List.mem_cons.1 listed with rfl | later
    · exact absurd tied (UInt32.ne_of_lt below)
    · exact (ih member later out).cons _

theorem length_eq (admits : Admits least budget slots admitted) :
    admitted.length = (slots.countP fun slot => least < slot.2) +
      min budget (slots.countP fun slot => slot.2 = least) := by
  induction admits with
  | nil => simp
  | larger above _ ih =>
    have other := (UInt32.ne_of_lt above).symm
    simp only [List.length_cons, List.countP_cons, above, other, decide_true, decide_false, if_true,
      ih]
    simp
    omega
  | spent same _ ih => simpa [same] using ih
  | tied same _ ih =>
    simp [same, ih]
    omega
  | smaller below _ ih =>
    simpa [UInt32.lt_asymm below, UInt32.ne_of_lt below] using ih

theorem preferred (admits : Admits least budget slots admitted) {x y : Nat × UInt32}
    (member : x ∈ admitted) (listed : y ∈ slots) (out : y ∉ admitted) :
    y.2.toNat < x.2.toNat ∨ y.2.toNat = x.2.toNat ∧ [x, y].Sublist slots := by
  have low : y.2.toNat ≤ least.toNat := by
    apply Nat.not_lt.1
    intro larger
    exact out (admits.mem_of_lt listed (UInt32.lt_iff_toNat_lt.2 larger))
  have high : least.toNat ≤ x.2.toNat := UInt32.le_iff_toNat_le.1 (admits.le_of_mem member)
  rcases Nat.lt_or_eq_of_le (Nat.le_trans low high) with less | same
  · exact .inl less
  · refine .inr ⟨same, ?_⟩
    apply admits.before_of_tied member _ listed _ out
    · exact UInt32.toNat_inj.1 (by omega)
    · exact UInt32.toNat_inj.1 (by omega)

/-- What is admitted is the selection of the `k` most frequent, if the least count is above one and
`k` is used up at it, or if it is one, there is no budget and `k` is enough for all. -/
theorem selection (admits : Admits least budget slots admitted)
    (fills : 1 < least ∧ (slots.countP fun slot => least < slot.2) + budget = k ∧
        budget ≤ (slots.countP fun slot => slot.2 = least) ∨
      least = 1 ∧ budget = 0 ∧ (slots.countP fun slot => 1 < slot.2) ≤ k) :
    Selection (fun slot : Nat × UInt32 => slot.2.toNat) k slots admitted where
  sublist := admits.sublist
  repeated := by
    intro x member
    rcases fills with ⟨several, -, -⟩ | ⟨rfl, rfl, -⟩
    · have atLeast := UInt32.le_iff_toNat_le.1 (admits.le_of_mem member)
      have two : 1 < least.toNat := UInt32.lt_iff_toNat_lt.1 several
      omega
    · exact UInt32.lt_iff_toNat_lt.1 (admits.lt_of_mem member)
  length_eq := by
    rw [admits.length_eq]
    rcases fills with ⟨several, size, enough⟩ | ⟨rfl, rfl, few⟩
    · -- The slots above the cutoff and those at it are among those met twice.
      have both : (slots.countP fun slot => least < slot.2) +
          (slots.countP fun slot => slot.2 = least) ≤
            slots.countP fun slot => 2 ≤ slot.2.toNat := by
        have two : 1 < least.toNat := UInt32.lt_iff_toNat_lt.1 several
        clear admits size enough
        induction slots with
        | nil => simp
        | cons slot rest ih =>
          simp only [List.countP_cons, decide_eq_true_iff, UInt32.lt_iff_toNat_lt,
            ← UInt32.toNat_inj] at ih ⊢
          split <;> split <;> split <;> omega
      omega
    · have same : (slots.countP fun slot => (1 : UInt32) < slot.2) =
          slots.countP fun slot => 2 ≤ slot.2.toNat := by
        apply List.countP_congr
        intro slot _
        rw [decide_eq_true_iff, decide_eq_true_iff, UInt32.lt_iff_toNat_lt]
        exact Iff.rfl
      omega
  preferred := fun x member y listed out _ => admits.preferred member listed out

end Admits

end GramCensus
