import GramCensus.Proofs.Tally.Exact

/-!
# What a selection admits

A selection with a least count and a budget admits of the slots of a space those above the least
count, and of those at it as many as the budget allows, from the first on (`Tally.Admitted`). The
selection looks only at slots that come into question, which are often much fewer than all; what it
admits is nevertheless what the same rule admits of all slots (`Tally.admits_slotCounts`).
-/

namespace GramCensus

/-! ## Parts of the slots -/

namespace Admits

variable {least : UInt32} {budget : Nat} {slots first second admitted others : List (Nat × UInt32)}

/-- One list is admitted only. -/
theorem unique (admits : Admits least budget slots admitted)
    (again : Admits least budget slots others) : admitted = others := by
  induction admits generalizing others with
  | nil =>
    cases again
    rfl
  | larger above _ ih =>
    cases again with
    | larger _ rest => rw [ih rest]
    | spent same _ => exact absurd same (UInt32.ne_of_lt above).symm
    | tied same _ => exact absurd same (UInt32.ne_of_lt above).symm
    | smaller below _ => exact absurd above (UInt32.lt_asymm below)
  | spent same _ ih =>
    cases again with
    | larger above _ => exact absurd same (UInt32.ne_of_lt above).symm
    | spent _ rest => exact ih rest
    | smaller below _ => exact absurd same (UInt32.ne_of_lt below)
  | tied same _ ih =>
    cases again with
    | larger above _ => exact absurd same (UInt32.ne_of_lt above).symm
    | tied _ rest => rw [ih rest]
    | smaller below _ => exact absurd same (UInt32.ne_of_lt below)
  | smaller below _ ih =>
    cases again with
    | larger above _ => exact absurd above (UInt32.lt_asymm below)
    | spent same _ => exact absurd same (UInt32.ne_of_lt below)
    | tied same _ => exact absurd same (UInt32.ne_of_lt below)
    | smaller _ rest => exact ih rest

/-- Of slots in two parts both are admitted from, the second with what is left of the budget. -/
theorem append (admits : Admits least budget (first ++ second) admitted) :
    ∃ early late, admitted = early ++ late ∧ Admits least budget first early ∧
      Admits least (budget - first.countP fun slot => slot.2 = least) second late := by
  induction first generalizing budget admitted with
  | nil => exact ⟨[], admitted, rfl, .nil, admits⟩
  | cons slot rest ih =>
    rw [List.cons_append] at admits
    cases admits with
    | larger above admits =>
      rcases ih admits with ⟨early, late, rfl, before, behind⟩
      have other : ¬ slot.2 = least := (UInt32.ne_of_lt above).symm
      rw [List.countP_cons_of_neg (by simpa using other)]
      exact ⟨slot :: early, late, rfl, .larger above before, behind⟩
    | spent same admits =>
      rcases ih admits with ⟨early, late, rfl, before, behind⟩
      rw [Nat.zero_sub] at behind ⊢
      exact ⟨early, late, rfl, .spent same before, behind⟩
    | @tied left _ _ taken same admits =>
      rcases ih admits with ⟨early, late, rfl, before, behind⟩
      rw [List.countP_cons_of_pos (by simpa using same), Nat.add_sub_add_right]
      exact ⟨slot :: early, late, rfl, .tied same before, behind⟩
    | smaller below admits =>
      rcases ih admits with ⟨early, late, rfl, before, behind⟩
      have other : ¬ slot.2 = least := UInt32.ne_of_lt below
      rw [List.countP_cons_of_neg (by simpa using other)]
      exact ⟨early, late, rfl, .smaller below before, behind⟩

/-- What is admitted of two parts is admitted of both together. -/
theorem join {early late : List (Nat × UInt32)} (admits : Admits least budget first early)
    (behind : Admits least (budget - first.countP fun slot => slot.2 = least) second late) :
    Admits least budget (first ++ second) (early ++ late) := by
  induction admits with
  | nil => exact behind
  | larger above _ ih =>
    have other : ¬ _ = least := (UInt32.ne_of_lt above).symm
    rw [List.countP_cons_of_neg (by simpa using other)] at behind
    exact .larger above (ih behind)
  | spent same _ ih =>
    rw [Nat.zero_sub] at behind ih
    exact .spent same (ih behind)
  | tied same _ ih =>
    rw [List.countP_cons_of_pos (by simpa using same), Nat.add_sub_add_right] at behind
    exact .tied same (ih behind)
  | smaller below _ ih =>
    have other : ¬ _ = least := UInt32.ne_of_lt below
    rw [List.countP_cons_of_neg (by simpa using other)] at behind
    exact .smaller below (ih behind)

/-- Slots that are below the least count, or at it where no budget is left, may be left out. -/
theorem filter {p : Nat × UInt32 → Bool}
    (idle : ∀ slot ∈ slots, p slot = false → slot.2 < least ∨ slot.2 = least ∧ budget = 0)
    (admits : Admits least budget slots admitted) :
    Admits least budget (slots.filter p) admitted := by
  induction admits with
  | nil => exact .nil
  | @larger _ slot _ _ above _ ih =>
    have kept : p slot = true := by
      by_contra dropped
      rcases idle slot List.mem_cons_self (Bool.eq_false_iff.2 dropped) with below | ⟨same, -⟩
      · exact UInt32.lt_asymm below above
      · exact UInt32.ne_of_lt above same.symm
    rw [List.filter_cons_of_pos kept]
    exact .larger above (ih fun other member => idle other (List.mem_cons_of_mem _ member))
  | @spent slot _ _ same _ ih =>
    have rest := ih fun other member => idle other (List.mem_cons_of_mem _ member)
    by_cases kept : p slot = true
    · rw [List.filter_cons_of_pos kept]
      exact .spent same rest
    · rwa [List.filter_cons_of_neg kept]
  | @tied _ slot _ _ same _ ih =>
    have kept : p slot = true := by
      by_contra dropped
      rcases idle slot List.mem_cons_self (Bool.eq_false_iff.2 dropped) with below | ⟨-, none⟩
      · exact UInt32.ne_of_lt below same
      · cases none
    rw [List.filter_cons_of_pos kept]
    refine .tied same (ih fun other member dropped => .inl ?_)
    rcases idle other (List.mem_cons_of_mem _ member) dropped with below | ⟨-, none⟩
    · exact below
    · cases none
  | @smaller _ slot _ _ below _ ih =>
    have rest := ih fun other member => idle other (List.mem_cons_of_mem _ member)
    by_cases kept : p slot = true
    · rw [List.filter_cons_of_pos kept]
      exact .smaller below rest
    · rwa [List.filter_cons_of_neg kept]

/-- Whether the first slot is admitted depends on its count and on whether there is a budget. -/
theorem head_mem_iff {slot : Nat × UInt32}
    (admits : Admits least budget (slot :: second) admitted) (new : slot ∉ second) :
    slot ∈ admitted ↔ least < slot.2 ∨ slot.2 = least ∧ 0 < budget := by
  cases admits with
  | larger above _ => exact ⟨fun _ => .inl above, fun _ => List.mem_cons_self⟩
  | spent same admits =>
    constructor
    · exact fun member => absurd (admits.sublist.subset member) new
    · rintro (above | ⟨-, none⟩)
      · exact absurd same (UInt32.ne_of_lt above).symm
      · exact absurd none (Nat.lt_irrefl 0)
  | tied same _ => exact ⟨fun _ => .inr ⟨same, Nat.succ_pos _⟩, fun _ => List.mem_cons_self⟩
  | smaller below admits =>
    constructor
    · exact fun member => absurd (admits.sublist.subset member) new
    · rintro (above | ⟨same, -⟩)
      · exact absurd above (UInt32.lt_asymm below)
      · exact absurd same (UInt32.ne_of_lt below)

end Admits

namespace Tally

variable {tally : Tally} {least : UInt32} {budget slot : Nat} {chosen : List (Nat × UInt32)}

/-! ## Admitted slots -/

/-- Whether a slot belongs to the slots above the least count or to the first ones at it, as many
as the budget allows. -/
def Admitted (tally : Tally) (least : UInt32) (budget slot : Nat) : Prop :=
  slot < tally.space.slots ∧ (least < tally.count slot ∨
    tally.count slot = least ∧
      ((List.range slot).countP fun other => tally.count other = least) < budget)

/-- The slots of a space with their counters, in two parts. -/
theorem slotCounts_split {border : Nat} (inside : border ≤ tally.space.slots) :
    tally.slotCounts = ((List.range border).map fun slot => (slot, tally.count slot)) ++
      (List.range' border (tally.space.slots - border)).map
        fun slot => (slot, tally.count slot) := by
  have parts := @List.range'_append_1 0 border (tally.space.slots - border)
  rw [Nat.zero_add, Nat.add_sub_cancel' inside, ← List.range_eq_range',
    ← List.range_eq_range'] at parts
  rw [slotCounts, ← parts, List.map_append]

theorem countP_counts_range (border : Nat) :
    (((List.range border).map fun slot => (slot, tally.count slot)).countP
        fun slot => slot.2 = least) =
      (List.range border).countP fun slot => tally.count slot = least := by
  rw [List.countP_map]
  rfl

/-- Of all slots exactly those are admitted. -/
theorem mem_iff_admitted (admits : Admits least budget tally.slotCounts chosen) :
    slot ∈ chosen.map (·.1) ↔ tally.Admitted least budget slot := by
  by_cases inside : slot < tally.space.slots
  · -- The slots before this one have used up their part of the budget.
    have rest : tally.space.slots - slot = tally.space.slots - slot - 1 + 1 := by omega
    have parts := @slotCounts_split tally slot (Nat.le_of_lt inside)
    rw [rest, List.range'_succ, List.map_cons] at parts
    have members : slot ∈ chosen.map (·.1) ↔ (slot, tally.count slot) ∈ chosen := by
      constructor
      · intro member
        rcases List.mem_map.1 member with ⟨pair, taken, rfl⟩
        rcases List.mem_map.1 (admits.sublist.subset taken) with ⟨other, -, rfl⟩
        exact taken
      · exact fun taken => List.mem_map.2 ⟨_, taken, rfl⟩
    rw [parts] at admits
    rcases admits.append with ⟨early, late, rfl, before, behind⟩
    rw [countP_counts_range] at behind
    have apart : (slot, tally.count slot) ∉ early := by
      intro member
      rcases List.mem_map.1 (before.sublist.subset member) with ⟨other, smaller, same⟩
      cases same
      exact Nat.lt_irrefl _ (List.mem_range.1 smaller)
    have new : (slot, tally.count slot) ∉ (List.range' (slot + 1)
        (tally.space.slots - slot - 1)).map fun slot => (slot, tally.count slot) := by
      intro member
      rcases List.mem_map.1 member with ⟨other, larger, same⟩
      cases same
      have above := (List.mem_range'_1.1 larger).1
      omega
    rw [members, List.mem_append, or_iff_right apart, behind.head_mem_iff new, Nat.sub_pos_iff_lt]
    exact ⟨fun admitted => ⟨inside, admitted⟩, fun admitted => admitted.2⟩
  · constructor
    · intro member
      rcases List.mem_map.1 member with ⟨pair, taken, rfl⟩
      rcases List.mem_map.1 (admits.sublist.subset taken) with ⟨other, small, rfl⟩
      exact absurd (List.mem_range.1 small) inside
    · exact fun admitted => absurd admitted.1 inside

/-! ## Slots that do not come into question -/

/-- The zero counters of the first slots are at least as many as are not in the list of counted
slots. -/
theorem le_countP_zero_range {border : Nat} (inside : border ≤ tally.space.slots) :
    border ≤ ((List.range border).countP fun slot => tally.count slot = 0) +
      (tally.nonzero.filter fun pair => pair.1 < tally.space.slots).length := by
  have counted : ((List.range border).countP fun slot => tally.count slot ≠ 0) ≤
      (tally.nonzero.filter fun pair => pair.1 < tally.space.slots).length := by
    rw [← filter_slotCounts, ← List.countP_eq_length_filter, slotCounts_split inside,
      List.countP_append, List.countP_map]
    exact Nat.le_add_right _ _
  have all := (List.range border).length_eq_countP_add_countP fun slot => tally.count slot = 0
  simp only [List.length_range, decide_eq_true_eq] at all
  simp only [ne_eq] at counted
  omega

/-- The counted slots from a border on. -/
theorem filter_behind {border : Nat} (inside : border ≤ tally.space.slots) :
    ((tally.slotCounts.filter fun pair => pair.2 ≠ 0).filter fun pair => border ≤ pair.1) =
      ((List.range' border (tally.space.slots - border)).map
        fun slot => (slot, tally.count slot)).filter fun pair => pair.2 ≠ 0 := by
  rw [List.filter_filter, slotCounts_split inside, List.filter_append, List.filter_eq_nil_iff.2,
    List.nil_append]
  · apply List.filter_congr
    intro pair member
    rcases List.mem_map.1 member with ⟨slot, later, rfl⟩
    have behind : border ≤ slot := (List.mem_range'_1.1 later).1
    simp [behind]
  · intro pair member
    rcases List.mem_map.1 member with ⟨slot, earlier, rfl⟩
    have before := List.mem_range.1 earlier
    simp [before]

/-- What is admitted of the slots that come into question is what is admitted of all. -/
theorem admits_slotCounts (tally : Tally) (least : UInt32) (budget : Nat) :
    Admits least budget tally.slotCounts
      (admitted least budget (tally.candidates least budget)) := by
  have all := admits_admitted least budget tally.slotCounts
  suffices some : Admits least budget (tally.candidates least budget)
      (admitted least budget tally.slotCounts) by
    rwa [← some.unique (admits_admitted least budget _)]
  by_cases zero : least = 0
  · subst zero
    simp only [candidates, if_pos]
    rw [← filter_slotCounts]
    generalize reach_eq : min tally.space.slots
      (budget + (tally.slotCounts.filter fun pair => pair.2 ≠ 0).length) = reach
    have inside : reach ≤ tally.space.slots := by omega
    have zeros := le_countP_zero_range inside
    rw [← filter_slotCounts] at zeros
    rw [filter_behind inside]
    rw [slotCounts_split inside] at all ⊢
    rcases all.append with ⟨early, late, joined, before, behind⟩
    rw [joined]
    refine before.join (behind.filter fun slot member dropped => .inr ⟨by simpa using dropped, ?_⟩)
    -- Where slots are left behind those that are looked at, the budget is used up.
    rcases List.mem_map.1 member with ⟨other, later, rfl⟩
    have more := List.mem_range'_1.1 later
    rw [countP_counts_range]
    omega
  · -- A slot without a count is below the least count.
    simp only [candidates, if_neg zero]
    rw [← filter_slotCounts]
    apply all.filter
    intro slot _ dropped
    left
    have empty : slot.2 = 0 := by simpa using dropped
    rw [empty]
    exact UInt32.lt_of_le_of_ne (UInt32.zero_le) (Ne.symm zero)

end Tally

end GramCensus
