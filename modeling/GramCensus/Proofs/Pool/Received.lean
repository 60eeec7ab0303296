import Mathlib.Data.Nat.ModEq
import GramCensus.Proofs.Pool.Flushing

/-!
# Sets that were received

The sets with a sign that a pool has received are those that it has counted and those that still
wait (`Sign.received`). A flush moves sets from the second group into the first, a lease leaves both
alone, and a lease that is given back adds its set to them. So none is lost, and none counted twice,
on the way to the closing of the pool (`Counting.close_eq_ok`).
-/

namespace GramCensus

namespace Counting

variable {counting : Counting}

/-! ## Sets that were received -/

/-- What holds of a pool and its tally between two operations. -/
structure Sound (counting : Counting) : Prop where
  settled : counting.pool.Settled counting.tally.words
  grouped : 0 < counting.pool.groupSize

theorem Sound.shaped (sound : counting.Sound) : counting.Shaped := fun slot member =>
  ⟨(sound.settled slot member).tidy, (sound.settled slot member).size_eq⟩

/-- The number of sets with a mark that were given back, be they counted or waiting. -/
def received (counting : Counting) (mark : Nat) : Nat :=
  (counting.tally.count mark).toNat + counting.pool.waitingWith mark

end Counting

namespace Sign

/-- The number of sets with a sign that were given back, be they counted or waiting. Sets without
any mark neither wait nor are they counted. -/
def received (sign : Sign) (counting : Counting) : Nat :=
  match sign with
  | .slot mark => counting.received mark
  | .any => counting.pool.flushedSets + counting.waiting

/-- The sets with a slot are counted modulo the range of the counters, and the sets with any mark
exactly. -/
def modulus : Sign → Nat
  | .slot _ => 2 ^ 32
  | .any => 0

end Sign

namespace Counting

variable {counting : Counting}

/-- What an operation leaves as it is: the shape of the pool and of the tally, and the sets that
were received. -/
structure Keeps (before after : Counting) : Prop where
  sound : after.Sound
  space_eq : after.tally.space = before.tally.space
  size_eq : after.pool.size = before.pool.size
  groupSize_eq : after.pool.groupSize = before.pool.groupSize
  received_eq : ∀ sign : Sign, sign.received after ≡ sign.received before [MOD sign.modulus]

theorem Keeps.refl (sound : counting.Sound) : counting.Keeps counting :=
  ⟨sound, rfl, rfl, rfl, fun _ => rfl⟩

theorem Keeps.trans {first second third : Counting} (before : first.Keeps second)
    (behind : second.Keeps third) : first.Keeps third where
  sound := behind.sound
  space_eq := behind.space_eq.trans before.space_eq
  size_eq := behind.size_eq.trans before.size_eq
  groupSize_eq := behind.groupSize_eq.trans before.groupSize_eq
  received_eq := fun sign => (behind.received_eq sign).trans (before.received_eq sign)

/-- What a flush takes from the sets that wait is what it adds to the counters. -/
theorem Drains.keeps {after : Counting} (drains : counting.Drains after) (sound : counting.Sound) :
    counting.Keeps after where
  sound := ⟨drains.settled sound.settled, by
    rw [drains.groupSize_eq]
    exact sound.grouped⟩
  space_eq := drains.space_eq
  size_eq := drains.size_eq
  groupSize_eq := drains.groupSize_eq
  received_eq := by
    intro sign
    cases sign with
    | slot mark =>
      rcases drains.counted mark with ⟨moved, grown, less⟩
      simp only [Sign.received, Sign.modulus, received, grown, Tally.toNat_add_toUInt32,
        Nat.ModEq]
      omega
    | any => exact congrArg (· % 0) drains.flushedSets_eq

/-! ## Leasing and giving back -/

/-- Slots that do not wait may be exchanged without a change of what was received. -/
theorem received_put {i : Nat} {before after : Slot} (found : counting.pool.slots[i]? = some before)
    (first : before.phase ≠ .waiting) (second : after.phase ≠ .waiting) (sign : Sign) :
    sign.received { counting with pool := counting.pool.put i after } = sign.received counting := by
  cases sign with
  | slot mark =>
    have moved := @Pool.waitingWith_put counting.pool i _ after found mark
    simp only [Pool.waitsWith, first, second, decide_false, Bool.false_and, Bool.toNat_false,
      Nat.add_zero] at moved
    simp only [Sign.received, received, moved]
  | any =>
    have moved := @Pool.countP_put counting.pool i _ after found
      fun slot => decide (slot.phase = .waiting)
    simp only [first, second, decide_false, Bool.toNat_false, Nat.add_zero] at moved
    simp only [Sign.received, waiting, moved]
    rfl

/-- A lease that a pool grants is over a clean mark set. -/
theorem keeps_lease {i : Nat} {pool : Pool} (sound : counting.Sound)
    (leased : counting.pool.lease = some (i, pool)) :
    counting.Keeps ⟨pool, counting.tally⟩ ∧ counting.pool.leased? i = none ∧
      (∃ marks, pool.leased? i = some marks ∧ ∀ sign : Sign, sign.on marks = false) ∧
      ∀ j, j ≠ i → pool.leased? j = counting.pool.leased? j := by
  rcases Pool.lease_eq_some leased with ⟨marks, found, rfl⟩
  rcases List.getElem?_eq_some_iff.1 found with ⟨inside, -⟩
  rcases sound.settled _ (List.mem_of_getElem? found) with ⟨tidy, sized, clean, -⟩
  refine ⟨⟨⟨sound.settled.put ⟨tidy, sized, ?_, .inr (.inl rfl)⟩, sound.grouped⟩, rfl,
    Pool.size_put _, rfl, ?_⟩, by rw [Pool.leased?, found], ⟨marks, ?_, fun sign =>
    Sign.on_eq_false tidy (clean rfl)⟩, fun j other => Pool.leased?_put_of_ne other⟩
  · intro free
    cases free
  · intro sign
    rw [received_put found (by simp) (by simp)]
  · rw [Pool.leased?_put_self inside, if_pos rfl]

/-- Whoever has fewer leases than there are slots gets another one. -/
theorem lease_eq_ok (sound : counting.Sound)
    (vacant : ∃ i, i < counting.pool.size ∧ counting.pool.leased? i = none) :
    ∃ after i, counting.lease = (after, .ok (some i)) ∧ counting.Keeps after ∧
      counting.pool.leased? i = none ∧
      (∃ marks, after.pool.leased? i = some marks ∧ ∀ sign : Sign, sign.on marks = false) ∧
      ∀ j, j ≠ i → after.pool.leased? j = counting.pool.leased? j := by
  rw [lease]
  split
  case h_1 i pool leased =>
    rcases keeps_lease sound leased with ⟨keeps, vacant, clean, others⟩
    exact ⟨_, i, rfl, keeps, vacant, clean, others⟩
  case h_2 none =>
    have taken := Pool.lease_eq_none_iff.1 none
    -- A slot that is neither leased nor free waits, and so there is something to flush.
    have waits : 0 < counting.waiting := by
      rcases vacant with ⟨i, inside, vacant⟩
      obtain ⟨slot, found⟩ : ∃ slot, counting.pool.slots[i]? = some slot :=
        ⟨_, List.getElem?_eq_getElem inside⟩
      have member := List.mem_of_getElem? found
      refine List.countP_pos_iff.2 ⟨slot, member, decide_eq_true ?_⟩
      rcases (sound.settled slot member).phase with free | leased | waits
      · exact absurd free (taken slot member)
      · have held : counting.pool.leased? i = some slot.marks := by
          rw [Pool.leased?_eq_some_iff, found, ← leased]
        rw [vacant] at held
        cases held
      · exact waits
    rcases flushGroup_drains sound.shaped 1 with ⟨after, flushed, flushing, drains, -, some⟩
    rcases some sound.grouped (Nat.le_refl 1) waits with ⟨-, slot, member, free⟩
    have keeps := drains.keeps sound
    have same := drains.leased?_eq
    simp only [flushing]
    split
    case h_1 i pool leased =>
      rcases keeps_lease keeps.sound leased with ⟨kept, vacant, clean, others⟩
      exact ⟨_, i, rfl, keeps.trans kept, by rw [← same]; exact vacant, clean,
        fun j other => (others j other).trans (same j)⟩
    case h_2 still => exact absurd free (Pool.lease_eq_none_iff.1 still slot member)

theorem Sound.giveBack {i : Nat} {marks : MarkSet} (sound : counting.Sound)
    (leased : counting.pool.leased? i = some marks) :
    Sound { counting with pool := counting.pool.giveBack i } := by
  refine ⟨sound.settled.giveBack leased, ?_⟩
  rw [Pool.giveBack_eq leased]
  exact sound.grouped

/-- A set that is given back is received with its signs. -/
theorem received_giveBack {i : Nat} {marks : MarkSet} (sound : counting.Sound)
    (leased : counting.pool.leased? i = some marks) (sign : Sign) :
    sign.received { counting with pool := counting.pool.giveBack i } =
      sign.received counting + (sign.on marks).toNat := by
  cases sign with
  | slot mark =>
    rw [Sign.received, received, Pool.waitingWith_giveBack sound.settled leased, ← Nat.add_assoc]
    rfl
  | any =>
    have moved := @Pool.countP_put counting.pool i _
      ⟨if marks.hasMarks then .waiting else .free, marks⟩ (Pool.leased?_eq_some_iff.1 leased)
      fun slot => decide (slot.phase = .waiting)
    have used : decide ((if marks.hasMarks then SlotPhase.waiting else .free) = .waiting) =
        marks.hasMarks := by
      cases marks.hasMarks <;> rfl
    simp only [used, reduceCtorEq, decide_false, Bool.toNat_false, Nat.add_zero] at moved
    simp only [Sign.received, waiting, Pool.giveBack_eq leased, moved, Nat.add_assoc, Sign.on]
    rfl

/-! ## Closing -/

/-- Between two operations a pool without leases is idle. -/
theorem Sound.idle (sound : counting.Sound) (returned : ∀ i, counting.pool.leased? i = none) :
    ∀ slot ∈ counting.pool.slots, slot.phase = .free ∨ slot.phase = .waiting := by
  intro slot member
  rcases List.getElem?_of_mem member with ⟨i, found⟩
  rcases (sound.settled slot member).phase with free | leased | waits
  · exact .inl free
  · have held : counting.pool.leased? i = some slot.marks := by
      rw [Pool.leased?_eq_some_iff, found, ← leased]
    rw [returned] at held
    cases held
  · exact .inr waits

/-- A pool without leases is closed, and its tally then counts all that was received. -/
theorem close_eq_ok (sound : counting.Sound) (returned : ∀ i, counting.pool.leased? i = none) :
    ∃ closed flushed, counting.close = (closed, .ok flushed) ∧
      closed.tally.space = counting.tally.space ∧
      ∀ mark, (closed.tally.count mark).toNat = counting.received mark % 2 ^ 32 := by
  obtain ⟨closed, flushed, closing, space, counts⟩ :=
    close_eq_ok_of_idle sound.shaped sound.grouped (sound.idle returned)
  refine ⟨closed, flushed, closing, space, ?_⟩
  intro mark
  rw [counts, Tally.toNat_add_toUInt32, received]

end Counting

end GramCensus
