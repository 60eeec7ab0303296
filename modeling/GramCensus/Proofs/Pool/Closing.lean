import GramCensus.Proofs.Pool.Journal

/-!
# Closing a pool

Closing flushes all that waits, in as few groups as there can be, and then takes the slots out of
use. It succeeds if and only if no lease is out and no slot was out of use before; otherwise it names
the first slot that is in the way and leaves that one and those behind it to whoever has them
(`Journal.reached_closes`). A lease that is out by then is as good as before: what is given back later
is counted with the flush that takes it.
-/

namespace GramCensus

namespace Pool

/-- The first slot that is leased or out of use. -/
structure BlockedAt (pool : Pool) (i : Nat) (phase : SlotPhase) : Prop where
  inTheWay : phase = .leased ∨ phase = .retired
  found : ∃ marks, pool.slots[i]? = some ⟨phase, marks⟩
  first : ∀ j < i, ∀ slot, pool.slots[j]? = some slot →
    slot.phase ≠ .leased ∧ slot.phase ≠ .retired

end Pool

namespace Counting

variable {counting after : Counting}

/-! ## Rounds -/

/-- A slot behind the flush of all that waits. -/
def drained (slot : Slot) : Slot :=
  if slot.phase = .waiting then flushed slot else slot

theorem Drains.slots_eq (drains : counting.Drains after) (none : after.waiting = 0) (i : Nat) :
    after.pool.slots[i]? = counting.pool.slots[i]?.map drained := by
  rcases drains.slot_cases i with same | ⟨slot, found, waits, freed⟩
  · rw [same]
    cases found : counting.pool.slots[i]? with
    | none => rfl
    | some slot =>
      -- A slot that waited before and is the same behind would still wait.
      have still : slot.phase ≠ .waiting := by
        intro waits
        exact List.countP_eq_zero.1 none slot (List.mem_of_getElem? (same.trans found))
          (decide_eq_true waits)
      rw [Option.map_some, drained, if_neg still]
  · rw [freed, found, Option.map_some, drained, if_pos waits]

/-- More rounds than there are sets that wait make no difference. -/
theorem flushRounds_succ {rounds : Nat} (enough : counting.waiting < rounds) :
    counting.flushRounds (rounds + 1) = counting.flushRounds rounds := by
  induction rounds generalizing counting with
  | zero => exact absurd enough (Nat.not_lt_zero _)
  | succ rounds ih =>
    have ends := counting.flushGroup_ends 1
    rw [flushRounds, flushRounds]
    generalize counting.flushGroup 1 = result at ends
    rcases result with ⟨after, failure | flushed⟩
    · rfl
    · cases flushed with
      | zero => rfl
      | succ count =>
        rcases ends.cases_ok with ⟨-, zero, -⟩ | ⟨-, -, -, -, -, less⟩
        · cases zero
        · exact congrArg (fun rest : Counting × Except Failure Nat =>
            (rest.1, rest.2.map (count + 1 + ·))) (@ih after (by omega))

theorem flushRounds_of_lt {rounds : Nat} (enough : counting.pool.size < rounds) :
    counting.flushRounds rounds = counting.flushRounds (counting.pool.size + 1) := by
  induction rounds, enough using Nat.le_induction with
  | base => rfl
  | succ rounds enough ih =>
    rw [flushRounds_succ (Nat.lt_of_lt_of_le counting.waiting_lt_rounds enough), ih]

/-! ## Slots out of use -/

theorem leased?_retire (pool : Pool) (i : Nat) :
    Pool.leased? { pool with slots := (retire 0 pool.slots).1 } i = pool.leased? i := by
  rcases getElem?_retire pool.slots 0 i with same | ⟨marks, free, retired⟩
  · rw [Pool.leased?, same, Pool.leased?]
  · rw [Pool.leased?, retired, Pool.leased?, free]

/-- Where no slot waits there is nothing to flush. -/
theorem flushGroup_of_waiting_eq_zero (none : counting.waiting = 0) (least : Nat) :
    counting.flushGroup least = (counting, .ok 0) := by
  have empty := counting.length_nextGroup
  rw [none, Nat.min_zero, List.length_eq_zero_iff] at empty
  have ends := counting.flushGroup_ends least
  generalize counting.flushGroup least = result at ends
  cases ends with
  | passed => rfl
  | merged some => exact absurd empty some
  | broken adding =>
    rw [empty] at adding
    cases adding

/-- How closing ends where the tally has a counter for every mark that waits. -/
structure Closes (before after : Counting) (leases : List Nat) (result : Except Failure Nat) :
    Prop where
  counted (mark : Nat) : after.tally.count mark =
    before.tally.count mark + (before.pool.waitingWith mark).toUInt32
  counted_exactly (mark : Nat) :
    (before.tally.count mark).toNat + before.pool.waitingWith mark < 2 ^ 32 →
      (after.tally.count mark).toNat =
        (before.tally.count mark).toNat + before.pool.waitingWith mark
  waiting_eq : after.waiting = 0
  flushes_eq : after.pool.flushes =
    before.pool.flushes + before.waiting ⌈/⌉ before.pool.groupSize
  flushedSets_eq : after.pool.flushedSets = before.pool.flushedSets + before.waiting
  leased?_eq (i : Nat) : after.pool.leased? i = before.pool.leased? i
  ok_iff : result = .ok before.waiting ↔
    leases = [] ∧ ∀ slot ∈ before.pool.slots, slot.phase ≠ .retired
  of_ok : result = .ok before.waiting → ∀ slot ∈ after.pool.slots, slot.phase = .retired
  of_error : result ≠ .ok before.waiting → ∃ i phase,
    result = .error (.flushProtocol i phase) ∧ before.pool.BlockedAt i phase ∧
      (∀ j < i, ∃ marks, after.pool.slots[j]? = some ⟨.retired, marks⟩) ∧
      ∀ j, i ≤ j → after.pool.slots[j]? = before.pool.slots[j]?.map drained

end Counting

namespace Journal

variable {journal : Journal} {space : Space} {words : Nat} {after : Counting}

/-- A slot between two calls is free behind the flush of all that waits if it was neither leased nor
out of use. -/
theorem Books.drained_free_iff (books : journal.Books space words) {slot : Slot}
    (member : slot ∈ journal.counting.pool.slots) :
    (Counting.drained slot).phase = .free ↔ slot.phase ≠ .leased ∧ slot.phase ≠ .retired := by
  have settled := (books.atRest slot member).settled
  rw [Counting.drained]
  rcases slot with ⟨phase, marks⟩
  cases phase with
  | flushing => exact absurd rfl settled
  | free => simp
  | leased => simp
  | waiting => simp [Counting.flushed]
  | retired => simp

theorem Books.leases_eq_nil_iff (books : journal.Books space words) :
    journal.leases = [] ↔ ∀ slot ∈ journal.counting.pool.slots, slot.phase ≠ .leased := by
  rw [List.eq_nil_iff_forall_not_mem]
  constructor
  · rintro none ⟨phase, marks⟩ member rfl
    rcases List.getElem?_of_mem member with ⟨i, found⟩
    exact none i ((books.leased_iff i).2 ⟨marks, Pool.leased?_eq_some_iff.2 found⟩)
  · intro none i member
    rcases (books.leased_iff i).1 member with ⟨marks, leased⟩
    exact none _ (List.mem_of_getElem? (Pool.leased?_eq_some_iff.1 leased)) rfl

/-- Behind the flush of all that waits, retiring stops at the first slot that was leased or out of
use. -/
theorem Books.retire_cases (books : journal.Books space words) {slots : List Slot}
    (slots_eq : ∀ i : Nat, slots[i]? = journal.counting.pool.slots[i]?.map Counting.drained) :
    (∀ slot ∈ journal.counting.pool.slots, slot.phase ≠ .leased ∧ slot.phase ≠ .retired) ∧
        Counting.retire 0 slots = (slots.map Counting.retired, .ok ()) ∨
      ∃ i phase, journal.counting.pool.BlockedAt i phase ∧
        (Counting.retire 0 slots).2 = .error (.flushProtocol i phase) ∧
        (∀ j < i, ∃ marks, (Counting.retire 0 slots).1[j]? = some ⟨.retired, marks⟩) ∧
        ∀ j, i ≤ j → (Counting.retire 0 slots).1[j]? =
          journal.counting.pool.slots[j]?.map Counting.drained := by
  have free_iff : ∀ {i : Nat} {old : Slot}, journal.counting.pool.slots[i]? = some old →
      slots[i]? = some (Counting.drained old) ∧ ((Counting.drained old).phase = .free ↔
        old.phase ≠ .leased ∧ old.phase ≠ .retired) := by
    intro i old found
    refine ⟨?_, books.drained_free_iff (List.mem_of_getElem? found)⟩
    rw [slots_eq, found, Option.map_some]
  rcases Counting.retire_cases slots 0 with ⟨all, run⟩ | ⟨free, slot, behind, rfl, all, taken, run⟩
  · refine .inl ⟨?_, run⟩
    intro old member
    rcases List.getElem?_of_mem member with ⟨i, found⟩
    rcases free_iff found with ⟨place, free⟩
    exact free.1 (all _ (List.mem_of_getElem? place))
  · right
    rw [Nat.zero_add] at run
    have place : (free ++ slot :: behind)[free.length]? = some slot := by simp
    obtain ⟨old, found, rfl⟩ : ∃ old, journal.counting.pool.slots[free.length]? = some old ∧
        Counting.drained old = slot := by
      rwa [slots_eq, Option.map_eq_some_iff] at place
    -- The slot that is not free was in the way before, and no flush has changed it.
    have inTheWay : old.phase = .leased ∨ old.phase = .retired := by
      have := mt (free_iff found).2.2 taken
      tauto
    have kept : Counting.drained old = old := by
      rw [Counting.drained, if_neg]
      rcases inTheWay with leased | retired
      · simp [leased]
      · simp [retired]
    rw [run, kept]
    refine ⟨free.length, old.phase, ⟨inTheWay, ⟨old.marks, found⟩, ?_⟩, rfl, ?_, ?_⟩
    · intro j before other held
      rcases free_iff held with ⟨later, iff⟩
      rw [List.getElem?_append_left before] at later
      exact iff.1 (all _ (List.mem_of_getElem? later))
    · intro j before
      refine ⟨free[j].marks, ?_⟩
      rw [List.getElem?_append_left (by rwa [List.length_map]), List.getElem?_map,
        List.getElem?_eq_getElem before]
      rfl
    · intro j behind_le
      rw [← slots_eq, List.getElem?_append_right (by rwa [List.length_map]), List.length_map,
        List.getElem?_append_right behind_le, kept]

theorem Books.closes (books : journal.Books space words) (fits : journal.counting.Fits) :
    ∃ result, journal.counting.close = ((journal.perform .close).counting, result) ∧
      journal.counting.Closes (journal.perform .close).counting journal.leases result := by
  rcases Counting.close_cases books.tidy books.grouped with
    ⟨-, after, drains, none, flushes, closing⟩ | ⟨small, -⟩
  case inr => exact absurd fits small
  have counted : ∀ mark, after.tally.count mark = journal.counting.tally.count mark +
      (journal.counting.pool.waitingWith mark).toUInt32 := by
    intro mark
    rcases drains.counted mark with ⟨moved, grown, less⟩
    rw [Counting.waitingWith_eq_zero none mark, Nat.zero_add] at less
    rw [grown, less]
  have sets := drains.flushedSets_eq
  rw [none, Nat.add_zero] at sets
  have ends := books.retire_cases (drains.slots_eq none)
  rw [Journal.perform, closing]
  refine ⟨_, rfl, {
    counted
    counted_exactly := ?exactly
    waiting_eq := (Counting.countP_retire (fun _ => rfl) after.pool.slots 0).trans none
    flushes_eq := flushes
    flushedSets_eq := sets
    leased?_eq := ?leases
    ok_iff := ?ok_iff
    of_ok := ?of_ok
    of_error := ?of_error }⟩
  case exactly =>
    intro mark few
    rw [counted mark, Tally.toNat_add_toUInt32, Nat.mod_eq_of_lt few]
  case leases => exact fun i => (Counting.leased?_retire after.pool i).trans (drains.leased?_eq i)
  case ok_iff =>
    rw [books.leases_eq_nil_iff]
    rcases ends with ⟨clear, run⟩ | ⟨i, phase, blocked, run, -, -⟩
    · rw [run]
      exact iff_of_true rfl ⟨fun slot member => (clear slot member).1,
        fun slot member => (clear slot member).2⟩
    · rw [run]
      refine iff_of_false (by simp [Except.map]) ?_
      rintro ⟨unleased, inUse⟩
      rcases blocked.found with ⟨marks, found⟩
      rcases blocked.inTheWay with rfl | rfl
      · exact unleased _ (List.mem_of_getElem? found) rfl
      · exact inUse _ (List.mem_of_getElem? found) rfl
  case of_ok =>
    intro ok slot member
    rcases ends with ⟨-, run⟩ | ⟨i, phase, -, run, -, -⟩
    · rw [run] at member
      rcases List.mem_map.1 member with ⟨old, -, rfl⟩
      rfl
    · rw [run] at ok
      cases ok
  case of_error =>
    intro failed
    rcases ends with ⟨-, run⟩ | ⟨i, phase, blocked, run, retired, kept⟩
    · rw [run] at failed
      exact absurd rfl failed
    · exact ⟨i, phase, by rw [run]; rfl, blocked, retired, kept⟩

/-! ## Calls behind a closing -/

/-- Where all slots are out of use no call changes any. -/
theorem slots_perform_of_retired
    (retired : ∀ slot ∈ journal.counting.pool.slots, slot.phase = .retired) (call : PoolCall) :
    (journal.perform call).counting.pool.slots = journal.counting.pool.slots := by
  have unleased : ∀ i, journal.counting.pool.leased? i = none := by
    intro i
    rw [Option.eq_none_iff_forall_ne_some]
    intro marks leased
    have member := List.mem_of_getElem? (Pool.leased?_eq_some_iff.1 leased)
    cases retired _ member
  have taken : journal.counting.pool.lease = none :=
    Pool.lease_eq_none_iff.2 fun slot member => by simp [retired slot member]
  have none : journal.counting.waiting = 0 :=
    List.countP_eq_zero.2 fun slot member => by simp [retired slot member]
  have passes := Counting.flushGroup_of_waiting_eq_zero none
  cases call with
  | lease => rw [perform, taken]
  | leaseFlushing => simp only [perform, Counting.lease, taken, passes]
  | set i bit => simp only [perform, Pool.set, unleased]
  | mark space i chunk => simp only [perform, withPool, Pool.mark, unleased]
  | clear i => simp only [perform, withPool, Pool.clear, unleased]
  | giveBack i => simp only [perform, unleased]
  | flush least => simp only [perform, passes]
  | close =>
    have rounds : journal.counting.flushRounds (journal.counting.pool.size + 1) =
        (journal.counting, .ok 0) := by simp only [Counting.flushRounds, passes]
    simp only [perform, Counting.close, rounds]
    apply List.ext_getElem?
    intro i
    rcases Counting.getElem?_retire journal.counting.pool.slots 0 i with same | ⟨marks, free, -⟩
    · exact same
    · cases retired _ (List.mem_of_getElem? free)

theorem slots_run_of_retired
    (retired : ∀ slot ∈ journal.counting.pool.slots, slot.phase = .retired) (calls : List PoolCall) :
    (journal.run calls).counting.pool.slots = journal.counting.pool.slots := by
  induction calls generalizing journal with
  | nil => rfl
  | cons call rest ih =>
    have same := slots_perform_of_retired retired call
    rw [run, List.foldl_cons]
    exact (ih (by rwa [same])).trans same

/-- What was given back stays written down. -/
theorem returned_perform (journal : Journal) (call : PoolCall) :
    ∃ since, (journal.perform call).returned = journal.returned ++ since := by
  have nothing : ∃ since, journal.returned = journal.returned ++ since :=
    ⟨[], (List.append_nil _).symm⟩
  cases call with
  | giveBack i =>
    rw [perform]
    split
    · exact nothing
    · exact ⟨_, rfl⟩
  | lease => rw [perform]; split <;> exact nothing
  | leaseFlushing => rw [perform]; split <;> exact nothing
  | set => rw [perform]; split <;> exact nothing
  | mark => exact nothing
  | clear => exact nothing
  | flush => exact nothing
  | close => exact nothing

theorem Reached.returned {start : Journal} (reached : start.Reached journal) :
    ∃ since, journal.returned = start.returned ++ since := by
  induction reached with
  | start => exact ⟨[], (List.append_nil _).symm⟩
  | @perform journal call _ _ ih =>
    rcases ih with ⟨before, same⟩
    rcases journal.returned_perform call with ⟨since, more⟩
    exact ⟨before ++ since, by rw [more, same, List.append_assoc]⟩

/-- What is given back behind a moment in which no set waits is counted from then on, or waits. -/
theorem Books.counted_since (books : journal.Books space words) {final : Journal}
    (none : journal.counting.waiting = 0) (reached : journal.Reached final) :
    ∃ since, final.returned = journal.returned ++ since ∧ ∀ mark,
      final.counting.tally.count mark + (final.counting.pool.waitingWith mark).toUInt32 =
        journal.counting.tally.count mark +
          (since.countP fun marks => marks.has mark).toUInt32 := by
  rcases reached.returned with ⟨since, returned⟩
  refine ⟨since, returned, fun mark => ?_⟩
  have before := books.balanced.counted mark
  rw [Counting.waitingWith_eq_zero none mark] at before
  rw [(books.reached reached).balanced.counted mark, returnedWith, returned, List.countP_append]
  refine (UInt32.ofNat_add _ _).trans (congrArg (· + _) ?_)
  exact before.symm.trans (UInt32.add_zero _)

/-! ## Every closing -/

/-- Closing a pool, whatever calls it has seen in which no flush broke down. If the tally has a
counter for every mark that waits, all that waits is counted and flushed, in as few groups as there can
be, and then closing succeeds if and only if no slot is leased or out of use; a pool that is closed
grants no lease. What is given back later, by leases that were out, is counted by later flushes. If a
mark that waits has no counter the closing breaks down. -/
theorem reached_closes [Memory] {tally : Tally} {pool : Pool} {slots groupSize : Nat}
    (counters : Tally.new space = .ok tally) (created : Pool.new slots words groupSize = .ok pool)
    (reached : (opening pool tally).Reached journal) :
    (∀ rounds, journal.counting.pool.size < rounds → journal.counting.flushRounds rounds =
      journal.counting.flushRounds (journal.counting.pool.size + 1)) ∧
    (journal.counting.Fits →
      ∃ result, journal.counting.close = ((journal.perform .close).counting, result) ∧
        journal.counting.Closes (journal.perform .close).counting journal.leases result ∧
        (result = .ok journal.counting.waiting →
          ∀ calls, ((journal.perform .close).run calls).counting.pool.lease = none) ∧
        ∀ final, (journal.perform .close).Reached final →
          ∃ since, final.returned = journal.returned ++ since ∧ ∀ mark,
            final.counting.tally.count mark +
                (final.counting.pool.waitingWith mark).toUInt32 =
              (journal.perform .close).counting.tally.count mark +
                (since.countP fun marks => marks.has mark).toUInt32) ∧
    (¬ journal.counting.Fits → ∃ after, journal.counting.close = (after, .error .outOfRange)) := by
  have books := (books_opening counters created).reached reached
  refine ⟨fun rounds => Counting.flushRounds_of_lt, ?fits, ?breaks⟩
  case breaks =>
    intro small
    rcases Counting.close_cases books.tidy books.grouped with ⟨fits, -⟩ | ⟨-, breaking⟩
    · exact absurd fits small
    · exact breaking
  case fits =>
    intro fits
    rcases books.closes fits with ⟨result, closing, closes⟩
    refine ⟨result, closing, closes, ?_, ?_⟩
    · intro ok calls
      have retired := closes.of_ok ok
      apply Pool.lease_eq_none_iff.2
      intro slot member
      rw [slots_run_of_retired retired calls] at member
      simp [retired slot member]
    · have behind := (books.perform (books.not_breaks_close fits)).1
      exact fun final => behind.counted_since closes.waiting_eq

-- What follows runs where all memory can be had.
attribute [local instance] Memory.whole

/-- A lease that is out when a pool is closed is in the way; its slot is given back and counted
later. The mark sets are larger here than the tally. -/
theorem reached_closes_of_outstanding_lease :
    ∃ tally pool journal, Tally.new .trigrams = .ok tally ∧
      Pool.new 2 (tally.words + 1) 1 = .ok pool ∧ (opening pool tally).Reached journal ∧
      journal.counting.Fits ∧ journal.counting.waiting = 1 ∧ ∃ result,
        journal.counting.Closes (journal.perform .close).counting journal.leases result ∧
        result ≠ .ok 1 := by
  have counters : Tally.new .trigrams = .ok (Tally.zero .trigrams) := rfl
  have created : ∃ pool, Pool.new 2 ((Tally.zero .trigrams).words + 1) 1 = .ok pool := ⟨_, rfl⟩
  rcases created with ⟨pool, created⟩
  let calls : List PoolCall := [.lease, .set 0 7, .lease, .set 1 5, .giveBack 1]
  have reached : (opening pool (Tally.zero .trigrams)).Reached
      ((opening pool (Tally.zero .trigrams)).run calls) :=
    Reached.start.run (by simp [calls, breaks])
  have books := (books_opening counters created).reached reached
  have facts := reached_closes counters created reached
  generalize journal_eq : (opening pool (Tally.zero .trigrams)).run calls = journal at *
  have known : (∀ slot ∈ journal.counting.pool.slots, slot.phase = .waiting →
      slot.marks.high ≤ journal.counting.tally.words) ∧ journal.counting.waiting = 1 ∧
        journal.leases = [0] := by
    rcases Pool.of_new created with ⟨-, rfl⟩
    rw [← journal_eq]
    decide +kernel
  rcases known with ⟨low, one, leases⟩
  have fits : journal.counting.Fits := fun slot member waits =>
    (books.tidy slot member).within_of_le (low slot member waits)
  rcases facts.2.1 fits with ⟨result, -, closes, -, -⟩
  refine ⟨_, pool, journal, counters, created, reached, fits, one, result, closes, ?_⟩
  rw [← one, Ne, closes.ok_iff, leases]
  simp

/-- A pool without leases breaks down as it is closed if a mark that waits is past the last
counter. -/
theorem close_breaks_of_oversized_set :
    ∃ tally pool journal, Tally.new .trigrams = .ok tally ∧
      Pool.new 1 (tally.words + 1) 1 = .ok pool ∧ (opening pool tally).Reached journal ∧
      journal.leases = [] ∧ (∀ slot ∈ journal.counting.pool.slots, slot.phase ≠ .retired) ∧
      journal.counting.waiting = 1 ∧
        ∃ after, journal.counting.close = (after, .error .outOfRange) := by
  have created : ∃ pool, Pool.new 1 ((Tally.zero .trigrams).words + 1) 1 = .ok pool := ⟨_, rfl⟩
  rcases created with ⟨pool, created⟩
  let calls : List PoolCall := [.lease, .set 0 16777216, .giveBack 0]
  have reached : (opening pool (Tally.zero .trigrams)).Reached
      ((opening pool (Tally.zero .trigrams)).run calls) :=
    Reached.start.run (by simp [calls, breaks])
  generalize journal_eq : (opening pool (Tally.zero .trigrams)).run calls = journal at *
  have known : journal.leases = [] ∧ (∀ slot ∈ journal.counting.pool.slots, slot.phase ≠ .retired) ∧
      journal.counting.waiting = 1 ∧ journal.counting.close.2 = .error .outOfRange := by
    rcases Pool.of_new created with ⟨-, rfl⟩
    rw [← journal_eq]
    decide +kernel
  rcases known with ⟨leases, inUse, one, broken⟩
  rcases closing : journal.counting.close with ⟨after, result⟩
  rw [closing] at broken
  exact ⟨_, pool, journal, rfl, created, reached, leases, inUse, one, after,
    closing.trans (congrArg (after, ·) broken)⟩

end Journal

end GramCensus
