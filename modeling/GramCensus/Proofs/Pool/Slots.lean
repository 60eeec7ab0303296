import GramCensus.Proofs.Pool.Leases

/-!
# Groups of slots

A pool changes its slots in groups: a flush is a change of the first slots that wait. This module
says what a change of a group does to every slot and to the number of slots with a property
(`Pool.countP_changeAt`), and which positions are in a phase (`Pool.mem_inPhase_iff`).
-/

namespace GramCensus

namespace Pool

variable {pool : Pool} {group : List Nat}

/-! ## Changing a group of slots -/

theorem getElem?_changeAt (change : Slot → Slot) (i : Nat) :
    (pool.changeAt group change).slots[i]? =
      pool.slots[i]?.map fun slot => if i ∈ group then change slot else slot := by
  rw [changeAt, List.getElem?_mapIdx]

theorem changeAt_changeAt (first second : Slot → Slot) :
    (pool.changeAt group first).changeAt group second =
      pool.changeAt group fun slot => second (first slot) := by
  simp only [changeAt, List.mapIdx_mapIdx]
  congr 2
  funext i slot
  by_cases inside : i ∈ group <;> simp [inside]

theorem size_changeAt (change : Slot → Slot) : (pool.changeAt group change).size = pool.size := by
  rw [size, changeAt, List.length_mapIdx, size]

theorem changeAt_append (pool : Pool) {first second : List Nat} (apart : ∀ i ∈ first, i ∉ second)
    (change : Slot → Slot) :
    (pool.changeAt first change).changeAt second change =
      pool.changeAt (first ++ second) change := by
  simp only [changeAt, List.mapIdx_mapIdx]
  congr 2
  funext i slot
  by_cases inFirst : i ∈ first
  · simp [inFirst, apart i inFirst]
  · simp [inFirst]

/-- A change that does nothing to the slots of a group leaves the pool as it is. -/
theorem changeAt_eq_self {change : Slot → Slot}
    (same : ∀ i ∈ group, ∀ slot, pool.slots[i]? = some slot → change slot = slot) :
    pool.changeAt group change = pool := by
  rw [changeAt]
  congr 1
  apply List.ext_getElem?
  intro i
  rw [List.getElem?_mapIdx]
  cases found : pool.slots[i]? with
  | none => rfl
  | some slot =>
    rw [Option.map_some]
    split
    case isTrue member => rw [same i member slot found]
    case isFalse => rfl

theorem changeAt_nil (change : Slot → Slot) : pool.changeAt [] change = pool :=
  changeAt_eq_self fun _ member => absurd member List.not_mem_nil

/-- A change of a group is a change of its first member behind a change of the others. -/
theorem changeAt_cons {i : Nat} {slot : Slot} (new : i ∉ group) (found : pool.slots[i]? = some slot)
    (change : Slot → Slot) :
    (pool.changeAt (i :: group) change).slots =
      ((pool.changeAt group change).put i (change slot)).slots := by
  apply List.ext_getElem?
  intro j
  rw [slots_put, getElem?_changeAt]
  by_cases same : j = i
  · subst same
    rcases List.getElem?_eq_some_iff.1 found with ⟨inside, -⟩
    rw [List.getElem?_set_self (by rwa [← size, size_changeAt]), found]
    simp
  · rw [List.getElem?_set_ne (Ne.symm same), getElem?_changeAt]
    simp [same]

/-- What a change takes from the slots with a property is what the group had. -/
theorem countP_changeAt {p : Slot → Bool} {change : Slot → Slot}
    (lost : ∀ slot, p (change slot) = false) (distinct : group.Nodup)
    (inside : ∀ i ∈ group, ∃ slot, pool.slots[i]? = some slot) :
    (pool.changeAt group change).slots.countP p +
        (group.filterMap fun i => pool.slots[i]?).countP p =
      pool.slots.countP p := by
  induction group with
  | nil => rw [changeAt_nil]; rfl
  | cons i rest ih =>
    rcases List.nodup_cons.1 distinct with ⟨new, distinct⟩
    have before := ih distinct fun j member => inside j (List.mem_cons_of_mem i member)
    rcases inside i List.mem_cons_self with ⟨slot, found⟩
    -- The first member of the group is none of the others, so their change leaves it.
    have kept : (pool.changeAt rest change).slots[i]? = some slot := by
      rw [getElem?_changeAt, found]
      simp [new]
    rcases List.getElem?_eq_some_iff.1 kept with ⟨small, same⟩
    have counted : p slot = true → 0 < (pool.changeAt rest change).slots.countP p :=
      fun holds => List.countP_pos_iff.2 ⟨_, List.mem_of_getElem? kept, holds⟩
    have first : ((i :: rest).filterMap fun j => pool.slots[j]?) =
        slot :: rest.filterMap fun j => pool.slots[j]? := List.filterMap_cons_some found
    rw [changeAt_cons new found, slots_put, List.countP_set small, same, lost, first,
      List.countP_cons]
    simp only [Bool.false_eq_true, if_false]
    by_cases holds : p slot = true
    · have positive := counted holds
      rw [if_pos holds]
      omega
    · rw [if_neg holds]
      omega

/-! ## Groups that wait -/

theorem mem_inPhase_iff {phase : SlotPhase} {i : Nat} :
    i ∈ pool.inPhase phase ↔ ∃ slot, pool.slots[i]? = some slot ∧ slot.phase = phase := by
  rw [inPhase, List.mem_filterMap]
  constructor
  · rintro ⟨⟨slot, j⟩, member, found⟩
    dsimp only at found
    split at found
    case isTrue same =>
      cases found
      exact ⟨slot, List.mem_zipIdx_iff_getElem?.1 member, same⟩
    case isFalse => cases found
  · rintro ⟨slot, found, same⟩
    exact ⟨(slot, i), List.mem_zipIdx_iff_getElem?.2 found, if_pos same⟩

theorem pairwise_inPhase (phase : SlotPhase) : (pool.inPhase phase).Pairwise (· < ·) := by
  have positions : pool.slots.zipIdx.Pairwise fun entry later => entry.2 < later.2 := by
    rw [← List.pairwise_map, List.zipIdx_map_snd]
    exact List.pairwise_lt_range'
  refine List.Pairwise.filterMap _ ?_ positions
  intro entry later before i found j other
  dsimp only at found other
  split at found
  · split at other
    · cases found
      cases other
      exact before
    · cases other
  · cases found

theorem nodup_inPhase (phase : SlotPhase) : (pool.inPhase phase).Nodup :=
  (pairwise_inPhase phase).imp Nat.ne_of_lt

/-- The positions of the slots in a phase are as many as these slots. -/
theorem length_inPhase (pool : Pool) (phase : SlotPhase) :
    (pool.inPhase phase).length = pool.slots.countP fun slot => decide (slot.phase = phase) := by
  have slots_eq : pool.slots = pool.slots.zipIdx.map (·.1) := (List.zipIdx_map_fst 0 _).symm
  conv_rhs => rw [slots_eq, List.countP_map]
  rw [inPhase, List.length_filterMap_eq_countP]
  apply List.countP_congr
  rintro ⟨slot, i⟩ -
  by_cases same : slot.phase = phase <;> simp [same]

theorem length_filterMap_slots (inside : ∀ i ∈ group, ∃ slot, pool.slots[i]? = some slot) :
    (group.filterMap fun i => pool.slots[i]?).length = group.length := by
  rw [List.length_filterMap_eq_countP, List.countP_eq_length]
  intro i member
  rcases inside i member with ⟨slot, found⟩
  rw [found]
  rfl

/-- The mark sets of a group of slots. -/
def setsAt (pool : Pool) (group : List Nat) : List MarkSet :=
  group.filterMap fun i => pool.slots[i]?.map (·.marks)

theorem setsAt_eq_map (pool : Pool) (group : List Nat) :
    pool.setsAt group = (group.filterMap fun i => pool.slots[i]?).map (·.marks) := by
  rw [setsAt, List.map_filterMap]

end Pool

end GramCensus
