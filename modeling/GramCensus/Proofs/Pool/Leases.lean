import GramCensus.Proofs.MarkSet.Marks
import GramCensus.Pool.Basic

/-!
# Leases of a pool

Between two operations every slot of a pool is free and clean, leased, or waiting
(`Slot.Settled`). Leasing, marking and giving back change the one slot that they are about: they
leave all other leases as they were, and of the sets that wait only giving back changes the number
(`Pool.waitingWith_giveBack`).
-/

namespace GramCensus

/-- The mark set of a slot has `words` words, and those with a bit lie in its extent. -/
structure Slot.Shaped (words : Nat) (slot : Slot) : Prop where
  tidy : slot.marks.Tidy
  size_eq : slot.marks.size = words

/-- What holds of a slot of `words` words between two operations of its pool. -/
structure Slot.Settled (words : Nat) (slot : Slot) : Prop where
  tidy : slot.marks.Tidy
  size_eq : slot.marks.size = words
  clean : slot.phase = .free → slot.marks.hasMarks = false
  phase : slot.phase = .free ∨ slot.phase = .leased ∨ slot.phase = .waiting

namespace Pool

variable {pool : Pool} {i : Nat}

def Settled (words : Nat) (pool : Pool) : Prop :=
  ∀ slot ∈ pool.slots, slot.Settled words

/-- Whether a slot waits with a mark. -/
def waitsWith (mark : Nat) (slot : Slot) : Bool :=
  decide (slot.phase = .waiting) && slot.marks.has mark

/-- The number of sets with a mark that wait. -/
def waitingWith (pool : Pool) (mark : Nat) : Nat :=
  pool.slots.countP (waitsWith mark)

/-- A new pool is a row of free and clean slots. -/
theorem of_new [Memory] {slots words groupSize : Nat} (created : new slots words groupSize = .ok pool) :
    0 < groupSize ∧
      pool = ⟨List.replicate slots ⟨.free, .empty words⟩, groupSize, 0, 0, 0⟩ := by
  rw [new] at created
  split at created
  case isTrue => cases created
  case isFalse valid =>
    split at created
    case isTrue => cases created
    case isFalse =>
      rw [MarkSet.newEach] at created
      cases room : Buffer.reserveEach "bitset" slots .bits64 words with
      | error failure =>
        rw [room] at created
        cases created
      | ok =>
        rw [room] at created
        cases created
        refine ⟨by omega, ?_⟩
        dsimp only
        rw [List.map_replicate]

theorem leased?_eq_some_iff {marks : MarkSet} :
    pool.leased? i = some marks ↔ pool.slots[i]? = some ⟨.leased, marks⟩ := by
  rw [leased?]
  constructor
  · intro held
    split at held
    case h_1 found found_eq =>
      cases held
      exact found_eq
    case h_2 => cases held
  · intro found
    rw [found]

/-! ## Putting a slot in the place of another -/

theorem slots_put (slot : Slot) : (pool.put i slot).slots = pool.slots.set i slot :=
  rfl

theorem size_put (slot : Slot) : (pool.put i slot).size = pool.size :=
  List.length_set

theorem put_put (first second : Slot) : (pool.put i first).put i second = pool.put i second := by
  rw [put, put, put, List.set_set]

@[simp] theorem flushedSets_put (slot : Slot) :
    (pool.put i slot).flushedSets = pool.flushedSets :=
  rfl

/-- A lease of the slot itself is what was put there. -/
theorem leased?_put_self {slot : Slot} (inside : i < pool.size) :
    (pool.put i slot).leased? i = if slot.phase = .leased then some slot.marks else none := by
  have found : (pool.put i slot).slots[i]? = some slot := by
    rw [slots_put, List.getElem?_set_self inside]
  rw [leased?, found]
  rcases slot with ⟨phase, marks⟩
  cases phase <;> rfl

theorem leased?_put_of_ne {slot : Slot} {j : Nat} (other : j ≠ i) :
    (pool.put i slot).leased? j = pool.leased? j := by
  rw [leased?, leased?, slots_put, List.getElem?_set_ne (Ne.symm other)]

theorem Settled.put {words : Nat} {slot : Slot} (settled : pool.Settled words)
    (new : slot.Settled words) : (pool.put i slot).Settled words := by
  intro each member
  rcases List.mem_or_eq_of_mem_set member with old | rfl
  · exact settled each old
  · exact new

/-- Changing a group of one slot puts the changed slot in its place. -/
theorem changeAt_singleton {slot : Slot} (found : pool.slots[i]? = some slot)
    (change : Slot → Slot) : pool.changeAt [i] change = pool.put i (change slot) := by
  rw [changeAt, put]
  congr 1
  apply List.ext_getElem?
  intro j
  rw [List.getElem?_mapIdx]
  by_cases same : j = i
  · subst same
    rw [List.getElem?_set_self (List.getElem?_eq_some_iff.1 found).1, found]
    simp
  · rw [List.getElem?_set_ne (Ne.symm same)]
    simp [same]

/-- The slots with a property, apart from one that is replaced. -/
theorem countP_put {before after : Slot} (found : pool.slots[i]? = some before) (p : Slot → Bool) :
    (pool.put i after).slots.countP p + (p before).toNat =
      pool.slots.countP p + (p after).toNat := by
  rcases List.getElem?_eq_some_iff.1 found with ⟨inside, same⟩
  have counted : p before = true → 0 < pool.slots.countP p :=
    fun holds => List.countP_pos_iff.2 ⟨before, List.mem_of_getElem? found, holds⟩
  rw [slots_put, List.countP_set inside, same]
  cases first : p before with
  | false => cases p after <;> simp
  | true =>
    have positive := counted first
    cases p after <;> simp <;> omega

theorem waitingWith_put {before after : Slot} (found : pool.slots[i]? = some before) (mark : Nat) :
    (pool.put i after).waitingWith mark + (waitsWith mark before).toNat =
      pool.waitingWith mark + (waitsWith mark after).toNat :=
  countP_put found (waitsWith mark)

/-! ## Leasing -/

/-- Leasing takes a slot that is free, and does nothing else. -/
theorem lease_eq_some {after : Pool} (leased : pool.lease = some (i, after)) :
    ∃ marks, pool.slots[i]? = some ⟨.free, marks⟩ ∧ after = pool.put i ⟨.leased, marks⟩ := by
  rw [lease] at leased
  split at leased
  case h_1 => cases leased
  case h_2 found =>
    cases leased
    rcases List.findIdx?_eq_some_iff_getElem.1 found with ⟨inside, free, -⟩
    obtain ⟨marks, held⟩ : ∃ marks, pool.slots[i]? = some ⟨.free, marks⟩ := by
      refine ⟨pool.slots[i].marks, ?_⟩
      rw [List.getElem?_eq_getElem inside, ← of_decide_eq_true free]
    exact ⟨marks, held, changeAt_singleton held _⟩

theorem lease_eq_none_iff : pool.lease = none ↔ ∀ slot ∈ pool.slots, slot.phase ≠ .free := by
  rw [lease]
  split
  case h_1 none => simpa using List.findIdx?_eq_none_iff.1 none
  case h_2 found =>
    rcases List.findIdx?_eq_some_iff_getElem.1 found with ⟨inside, free, -⟩
    constructor
    · intro leased
      cases leased
    · intro taken
      exact absurd (of_decide_eq_true free) (taken _ (List.getElem_mem inside))

/-! ## Marking -/

/-- Marking a chunk adds the signs that it shows to the leased set. -/
theorem mark_eq_ok {space : Space} {words : Nat} {marks : MarkSet} (made : space.Made)
    (fits : space.slots ≤ words * 64) (settled : pool.Settled words)
    (leased : pool.leased? i = some marks) (chunk : Bytes) :
    ∃ changed, pool.mark space i chunk =
        (pool.put i ⟨.leased, changed⟩, .ok (space.hits chunk)) ∧
      (∀ sign : Sign, sign.on changed = (sign.on marks || sign.shownBy space chunk)) ∧
      (pool.put i ⟨.leased, changed⟩).Settled words := by
  rcases settled _ (List.mem_of_getElem? (leased?_eq_some_iff.1 leased)) with ⟨tidy, sized, -, -⟩
  obtain ⟨changed, marking, size, shows, tidies⟩ :=
    MarkSet.mark_shows made (by rwa [sized]) chunk
  refine ⟨changed, ?_, shows, settled.put ⟨tidies tidy, size.trans sized, ?_, ?_⟩⟩
  · rw [mark, leased]
    simp only [marking]
  · intro free
    cases free
  · exact .inr (.inl rfl)

/-! ## Giving back -/

theorem giveBack_eq {marks : MarkSet} (leased : pool.leased? i = some marks) :
    pool.giveBack i = pool.put i ⟨if marks.hasMarks then .waiting else .free, marks⟩ := by
  rw [giveBack, leased]

theorem Settled.giveBack {words : Nat} {marks : MarkSet} (settled : pool.Settled words)
    (leased : pool.leased? i = some marks) : (pool.giveBack i).Settled words := by
  rcases settled _ (List.mem_of_getElem? (leased?_eq_some_iff.1 leased)) with ⟨tidy, sized, -, -⟩
  rw [giveBack_eq leased]
  refine settled.put ⟨tidy, sized, ?_, ?_⟩
  · intro free
    cases used : marks.hasMarks with
    | true => simp [used] at free
    | false => rfl
  · cases marks.hasMarks
    · exact .inl rfl
    · exact .inr (.inr rfl)

/-- A set that is given back waits with its marks. Without any it is free, which is the same to
everyone who counts marks. -/
theorem waitingWith_giveBack {words : Nat} {marks : MarkSet} (settled : pool.Settled words)
    (leased : pool.leased? i = some marks) (mark : Nat) :
    (pool.giveBack i).waitingWith mark = pool.waitingWith mark + (marks.has mark).toNat := by
  have found := leased?_eq_some_iff.1 leased
  rcases settled _ (List.mem_of_getElem? found) with ⟨tidy, -, -, -⟩
  have replaced := @waitingWith_put pool i _
    ⟨if marks.hasMarks then .waiting else .free, marks⟩ found mark
  have before : waitsWith mark ⟨.leased, marks⟩ = false := rfl
  have after : waitsWith mark ⟨if marks.hasMarks then .waiting else .free, marks⟩ =
      marks.has mark := by
    cases used : marks.hasMarks with
    | true => rfl
    | false => exact (tidy.has_of_not_hasMarks used mark).symm
  rw [giveBack_eq leased]
  rw [before, after] at replaced
  exact replaced

theorem leased?_giveBack_self {marks : MarkSet} (leased : pool.leased? i = some marks) :
    (pool.giveBack i).leased? i = none := by
  rcases List.getElem?_eq_some_iff.1 (leased?_eq_some_iff.1 leased) with ⟨inside, -⟩
  rw [giveBack_eq leased, leased?_put_self inside]
  cases marks.hasMarks <;> rfl

theorem leased?_giveBack_of_ne {j : Nat} (other : j ≠ i) :
    (pool.giveBack i).leased? j = pool.leased? j := by
  rw [giveBack]
  split
  · rfl
  · exact leased?_put_of_ne other

theorem size_giveBack : (pool.giveBack i).size = pool.size := by
  rw [giveBack]
  split
  · rfl
  · exact size_put _

end Pool

end GramCensus
