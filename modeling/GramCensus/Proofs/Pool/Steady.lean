import GramCensus.Proofs.Pool.Received

/-!
# Pools that flush full groups only

A pool with one mark set more than a group has, used by one holder at a time, is never without a
free set: fewer sets than a group wait while one is leased, since a group is flushed as soon as it
is full (`Counting.Steady`). So the holder never waits, every flush but the last one takes a full
group, and the number of flushes follows from that of the sets (`Counting.Steady.flushes_of_close`).
-/

namespace GramCensus

namespace Counting

variable {counting : Counting} {groupSize : Nat}

/-! ## A holder at a time -/

/-- A pool of a group and one more set, in which nobody has waited and only full groups were
flushed. -/
structure Regular (groupSize : Nat) (counting : Counting) : Prop where
  groupSize_eq : counting.pool.groupSize = groupSize
  size_eq : counting.pool.size = groupSize + 1
  waits_eq : counting.pool.waits = 0
  full : counting.pool.flushedSets = counting.pool.flushes * groupSize

/-- What holds of a pool and its tally while one holder at a time uses it, between two
operations. -/
structure Steady (groupSize : Nat) (counting : Counting) : Prop
    extends counting.Regular groupSize where
  few : counting.waiting < groupSize

theorem Regular.put (regular : counting.Regular groupSize) (i : Nat) (slot : Slot) :
    Regular groupSize { counting with pool := counting.pool.put i slot } where
  groupSize_eq := regular.groupSize_eq
  size_eq := (Pool.size_put slot).trans regular.size_eq
  waits_eq := regular.waits_eq
  full := regular.full

/-- Where at most a group waits, flushing a full group makes room again. -/
theorem Regular.flushGroup (regular : counting.Regular groupSize) (shaped : counting.Shaped)
    (some : 0 < groupSize) (most : counting.waiting ≤ groupSize) :
    ∃ after flushed, counting.flushGroup groupSize = (after, .ok flushed) ∧
      after.Steady groupSize := by
  obtain ⟨after, flushed, flushing, drains, -⟩ := flushGroup_drains shaped groupSize
  have grouped := regular.groupSize_eq
  have ends := counting.flushGroup_ends groupSize
  rw [flushing] at ends
  refine ⟨after, flushed, flushing, ?_⟩
  rcases ends.cases_ok with ⟨rfl, rfl, short⟩ | ⟨taken, -, least, flushes, sets, left⟩
  · exact ⟨regular, by omega⟩
  · -- The group was full, and nothing waits behind it.
    have group : flushed = groupSize := by omega
    exact {
      groupSize_eq := drains.groupSize_eq.trans grouped
      size_eq := drains.size_eq.trans regular.size_eq
      waits_eq := drains.waits_eq.trans regular.waits_eq
      full := by rw [sets, flushes, regular.full, group, Nat.succ_mul]
      few := by omega }

namespace Steady

/-- Slots that do not wait may be exchanged. -/
theorem put {i : Nat} {before after : Slot} (steady : counting.Steady groupSize)
    (found : counting.pool.slots[i]? = some before) (first : before.phase ≠ .waiting)
    (second : after.phase ≠ .waiting) :
    Steady groupSize { counting with pool := counting.pool.put i after } where
  toRegular := steady.toRegular.put i after
  few := by
    have same := received_put found first second .any
    have few := steady.few
    simp only [Sign.received, Pool.flushedSets_put] at same
    omega

/-- Without a lease there is a free set, so the next lease needs no flush. -/
theorem lease_eq_ok (steady : counting.Steady groupSize) (sound : counting.Sound)
    (returned : ∀ i, counting.pool.leased? i = none) :
    ∃ after slot, counting.lease = (after, .ok (some slot)) ∧ after.Steady groupSize := by
  cases leased : counting.pool.lease with
  | none =>
    -- No slot is free or leased, so all of them wait, which is more than a group.
    have taken := Pool.lease_eq_none_iff.1 leased
    have all : counting.waiting = counting.pool.size := by
      apply List.countP_eq_length.2
      intro slot member
      rcases sound.idle returned slot member with free | waits
      · exact absurd free (taken slot member)
      · exact decide_eq_true waits
    have few := steady.few
    rw [all, steady.size_eq] at few
    exact absurd few (by omega)
  | some result =>
    rcases result with ⟨slot, pool⟩
    rcases Pool.lease_eq_some leased with ⟨marks, found, rfl⟩
    exact ⟨_, slot, by rw [lease, leased], steady.put found (by simp) (by simp)⟩

theorem mark (steady : counting.Steady groupSize) (space : Space) (i : Nat) (chunk : Bytes) :
    Steady groupSize { counting with pool := (Pool.mark space counting.pool i chunk).1 } := by
  rw [Pool.mark]
  split
  case h_1 => exact steady
  case h_2 marks leased =>
    exact steady.put (Pool.leased?_eq_some_iff.1 leased) (by simp) (by simp)

/-- Giving a set back and flushing a full group keeps a pool steady. -/
theorem giveBack (steady : counting.Steady groupSize) (sound : counting.Sound) {i : Nat}
    {marks : MarkSet} (leased : counting.pool.leased? i = some marks) :
    ∃ after flushed, Counting.flushGroup { counting with pool := counting.pool.giveBack i }
      groupSize = (after, .ok flushed) ∧ after.Steady groupSize := by
  have shaped := (sound.giveBack leased).shaped
  have received := received_giveBack sound leased .any
  have one := Bool.toNat_le (Sign.any.on marks)
  have few := steady.few
  rw [Pool.giveBack_eq leased] at shaped received ⊢
  refine (steady.toRegular.put i _).flushGroup shaped (Nat.zero_lt_of_lt few) ?_
  -- The set that is given back is the only one more that may wait.
  simp only [Sign.received, Pool.flushedSets_put] at received
  omega

/-! ## Closing -/

/-- Once a steady pool is closed, its sets were flushed in as few groups as there can be. -/
theorem flushes_of_close {closed : Counting} {flushed : Nat} (steady : counting.Steady groupSize)
    (sound : counting.Sound) (closes : counting.close = (closed, .ok flushed)) :
    closed.pool.waits = 0 ∧
      closed.pool.flushes = closed.pool.flushedSets ⌈/⌉ groupSize := by
  rcases flushRounds_cases sound.shaped.tidy sound.grouped counting.waiting_lt_rounds with
    ⟨-, after, run, drains, none, flushes⟩ | ⟨small, -⟩
  · simp only [close, run] at closes
    obtain rfl := congrArg Prod.fst closes
    refine ⟨drains.waits_eq.trans steady.waits_eq, ?_⟩
    have sets := drains.flushedSets_eq
    rw [none, Nat.add_zero, steady.full] at sets
    have some := Nat.zero_lt_of_lt steady.few
    change after.pool.flushes = after.pool.flushedSets ⌈/⌉ groupSize
    rw [flushes, sets, steady.groupSize_eq, Nat.ceilDiv_eq_add_pred_div, Nat.ceilDiv_eq_add_pred_div,
      Nat.add_assoc, Nat.add_sub_assoc (show 1 ≤ counting.waiting + groupSize by omega),
      Nat.mul_comm, Nat.mul_add_div some]
  · exact absurd sound.shaped.fits small

end Steady

end Counting

end GramCensus
