import GramCensus.Proofs.Pool.Interleaving

/-!
# Whatever the schedule

Any number of threads may lease, mark, give back and flush in any order of their steps
(`Crew.run_safe`): a slot that is leased or being flushed has one owner, and any other slot has none;
what a slot was given back with is in the tally before it is leased again; no flush ever finds a slot
of its group in a wrong phase. Once all threads are through, the pool can be closed, and each counter
is then the number of mark sets that were given back with its mark.
-/

namespace GramCensus

namespace SharedPool

variable {shared : SharedPool}

/-! ## Adding up the record -/

theorem count_map_filter {α : Type} (key : α → Nat) (p : α → Bool) (entries : List α) (i : Nat) :
    ((entries.filter p).map key).count i =
      entries.countP fun entry => decide (key entry = i) && p entry := by
  rw [List.count, List.countP_map, List.countP_filter]
  rfl

/-- The slots that wait with a mark. -/
def waitingSlots (shared : SharedPool) (mark : Nat) : List Nat :=
  (shared.counting.pool.slots.zipIdx.filter fun (slot, _) => Pool.waitsWith mark slot).map (·.2)

theorem length_waitingSlots (mark : Nat) :
    (shared.waitingSlots mark).length = shared.counting.pool.waitingWith mark := by
  rw [waitingSlots, List.length_map, ← List.countP_eq_length_filter, Pool.waitingWith,
    ← List.zipIdx_map_fst 0 shared.counting.pool.slots, List.countP_map, List.zipIdx_map_fst]
  rfl

theorem count_waitingSlots (i mark : Nat) :
    (shared.waitingSlots mark).count i = shared.pending i mark := by
  have distinct : (shared.waitingSlots mark).Nodup := by
    refine List.Nodup.sublist (List.Sublist.map _ List.filter_sublist) ?_
    rw [List.zipIdx_map_snd]
    exact List.nodup_range'
  have member : i ∈ shared.waitingSlots mark ↔
      (shared.slot? i).any (Pool.waitsWith mark) = true := by
    rw [waitingSlots, List.mem_map, Option.any_eq_true]
    constructor
    · rintro ⟨⟨slot, j⟩, listed, rfl⟩
      rcases List.mem_filter.1 listed with ⟨place, waits⟩
      exact ⟨slot, List.mem_zipIdx_iff_getElem?.1 place, waits⟩
    · rintro ⟨slot, found, waits⟩
      exact ⟨(slot, i), List.mem_filter.2 ⟨List.mem_zipIdx_iff_getElem?.2 found, waits⟩, rfl⟩
  -- Every slot is listed at most once, so the number of times tells whether it waits with the mark.
  rw [distinct.count, pending]
  cases waits : (shared.slot? i).any (Pool.waitsWith mark) <;> simp [member, waits]

/-- If every slot has added what it was given back with, unless it waits with it, then so have all of
them together. -/
theorem addedWith_add_waitingWith {mark : Nat}
    (balance : ∀ i, shared.addedFrom i mark + shared.pending i mark = shared.returnedFrom i mark) :
    shared.addedWith mark + shared.counting.pool.waitingWith mark = shared.returnedWith mark := by
  -- Both sides list slots: those added or waiting, and those given back.
  have perm : ((shared.added.filter fun entry =>
        decide (entry.2.1 = mark / 64) && wordHas entry.2.2 (mark % 64)).map (·.1) ++
      shared.waitingSlots mark).Perm
        ((shared.returned.filter fun entry => entry.2.has mark).map (·.1)) := by
    rw [List.perm_iff_count]
    intro i
    rw [List.count_append, count_map_filter, count_map_filter, count_waitingSlots]
    exact balance i
  have lengths := perm.length_eq
  rw [List.length_append, List.length_map, List.length_map, ← List.countP_eq_length_filter,
    ← List.countP_eq_length_filter, length_waitingSlots] at lengths
  exact lengths

end SharedPool

namespace Crew

variable {crew : Crew} {t i : Nat}

/-- Whether a thread has a slot, leased or in the group of a flush. -/
def Has (crew : Crew) (t i : Nat) : Prop :=
  ∃ thread, crew.threads[t]? = some thread ∧ (i ∈ thread.leases ∨ i ∈ thread.task.group)

/-- What every schedule guarantees. A slot that is leased or being flushed has one owner, who has it
once and in that phase, and any other slot has none (`one_owner`, `no_owner`, `in_phase`, `once`). So
no flush has a slot that anyone could still mark (`apart`). A slot is free or leased only when what it
was given back with is added to the tally (`settled`), which counts what was added in the arithmetic
of its counters (`counted`). No thread finds a slot of its group in a wrong phase, or breaks down
(`unharmed`). -/
structure Safe (crew : Crew) : Prop where
  one_owner : ∀ i, crew.shared.phase? i = some .leased ∨ crew.shared.phase? i = some .flushing →
    ∃! t, crew.Has t i
  no_owner : ∀ i, crew.shared.phase? i ≠ some .leased → crew.shared.phase? i ≠ some .flushing →
    ∀ t, ¬ crew.Has t i
  in_phase : ∀ thread ∈ crew.threads,
    (∀ i ∈ thread.leases, crew.shared.phase? i = some .leased) ∧
      ∀ i ∈ thread.task.group, crew.shared.phase? i = some .flushing
  once : ∀ thread ∈ crew.threads, thread.leases.Nodup ∧ thread.task.group.Nodup
  apart : ∀ thread ∈ crew.threads, ∀ i ∈ thread.task.group, ∀ other ∈ crew.threads,
    i ∉ other.leases
  settled : ∀ i, crew.shared.phase? i = some .free ∨ crew.shared.phase? i = some .leased →
    ∀ mark, crew.shared.addedFrom i mark = crew.shared.returnedFrom i mark
  counted : ∀ mark,
    crew.shared.counting.tally.count mark = (crew.shared.addedWith mark).toUInt32
  unharmed : ∀ thread ∈ crew.threads,
    (∀ i expected found, thread.task ≠ .violated i expected found) ∧
      ∀ failure, thread.task ≠ .broken failure

/-- All threads have given back what they had leased, and are about nothing. -/
def Finished (crew : Crew) : Prop :=
  ∀ thread ∈ crew.threads, thread.leases = [] ∧ thread.task = .idle

/-- The pool can be closed, and each counter is then the number of mark sets that were given back with
its mark, in the arithmetic of its bits and, as long as these suffice, in that of natural numbers. -/
def Settles (crew : Crew) : Prop :=
  ∃ closed flushed, crew.shared.counting.close = (closed, .ok flushed) ∧
    ∀ mark, closed.tally.count mark = (crew.shared.returnedWith mark).toUInt32 ∧
      (crew.shared.returnedWith mark < 2 ^ 32 →
        (closed.tally.count mark).toNat = crew.shared.returnedWith mark)

/-! ## Owners -/

theorem has_iff : crew.Has t i ↔
    ∃ thread phase, crew.threads[t]? = some thread ∧ i ∈ thread.owns phase := by
  constructor
  · rintro ⟨thread, found, leased | flushing⟩
    · exact ⟨thread, .leased, found, leased⟩
    · exact ⟨thread, .flushing, found, flushing⟩
  · rintro ⟨thread, phase, found, member⟩
    cases phase with
    | leased => exact ⟨thread, found, .inl member⟩
    | flushing => exact ⟨thread, found, .inr member⟩
    | _ => cases member

namespace Sound

/-- A slot in the hands of a thread is in those of one. -/
theorem one_owner (sound : crew.Sound) {phase : SlotPhase} (isHeld : phase.isHeld = true)
    (inPhase : crew.shared.phase? i = some phase) : ∃! t, crew.Has t i := by
  have one := sound.owned i phase
  rw [SharedPool.held, isHeld, decide_eq_true inPhase] at one
  obtain ⟨thread, member, has⟩ : ∃ thread ∈ crew.threads, i ∈ thread.owns phase := by
    by_contra none
    have zero : crew.owners i phase = 0 := by
      apply List.sum_eq_zero_iff_forall_eq_nat.2
      intro number listed
      rcases List.mem_map.1 listed with ⟨thread, member, rfl⟩
      exact List.count_eq_zero.2 fun has => none ⟨thread, member, has⟩
    rw [zero] at one
    cases one
  rcases List.getElem?_of_mem member with ⟨t, found⟩
  refine ⟨t, has_iff.2 ⟨thread, phase, found, has⟩, ?_⟩
  intro u other
  rcases has_iff.1 other with ⟨second, held, place, also⟩
  -- Both threads have the slot in the phase that it is in.
  cases (sound.held_of_mem place also).2.symm.trans inPhase
  by_contra different
  exact sound.not_mem_of_mem found place different has also

theorem in_phase (sound : crew.Sound) {thread : Thread} (member : thread ∈ crew.threads) :
    (∀ i ∈ thread.leases, crew.shared.phase? i = some .leased) ∧
      ∀ i ∈ thread.task.group, crew.shared.phase? i = some .flushing := by
  rcases List.getElem?_of_mem member with ⟨t, found⟩
  exact ⟨fun i leased => (@held_of_mem crew thread t i sound found .leased leased).2,
    fun i group => (@held_of_mem crew thread t i sound found .flushing group).2⟩

theorem safe (sound : crew.Sound) : crew.Safe where
  one_owner := by
    rintro i (leased | flushing)
    · exact sound.one_owner rfl leased
    · exact sound.one_owner rfl flushing
  no_owner := by
    intro i leased flushing t has
    rcases has_iff.1 has with ⟨thread, phase, found, member⟩
    rcases sound.held_of_mem found member with ⟨isHeld, inPhase⟩
    cases phase with
    | leased => exact leased inPhase
    | flushing => exact flushing inPhase
    | _ => cases isHeld
  in_phase := fun thread => sound.in_phase
  once := by
    intro thread member
    rcases List.getElem?_of_mem member with ⟨t, found⟩
    exact ⟨sound.nodup_owns found .leased, sound.nodup_owns found .flushing⟩
  apart := by
    intro thread member i group other listed leases
    have flushing := (sound.in_phase member).2 i group
    have leased := (sound.in_phase listed).1 i leases
    cases flushing.symm.trans leased
  settled := by
    intro i still mark
    have rests := sound.rests i (by rcases still with free | leased <;> simp [*]) mark
    have none : crew.shared.pending i mark = 0 := by
      rcases still with free | leased
      · rcases SharedPool.phase?_eq_some_iff.1 free with ⟨marks, found⟩
        rw [SharedPool.pending, found]
        rfl
      · rcases SharedPool.phase?_eq_some_iff.1 leased with ⟨marks, found⟩
        rw [SharedPool.pending, found]
        rfl
    rwa [none] at rests
  counted := sound.counted
  unharmed := by
    intro thread member
    have ready := (sound.fits thread member).ready
    constructor
    · intro i expected found task
      rw [Thread.Ready, task] at ready
      exact ready
    · intro failure task
      rw [Thread.Ready, task] at ready
      exact ready

/-! ## The end -/

theorem phase_of_finished (sound : crew.Sound) (finished : crew.Finished) {slot : Slot}
    (found : crew.shared.slot? i = some slot) : slot.phase = .free ∨ slot.phase = .waiting := by
  have unowned : ∀ phase, crew.owners i phase = 0 := by
    intro phase
    apply List.sum_eq_zero_iff_forall_eq_nat.2
    intro number listed
    rcases List.mem_map.1 listed with ⟨⟨leases, task⟩, member, rfl⟩
    rcases finished _ member with ⟨rfl, rfl⟩
    cases phase <;> rfl
  have inUse := sound.inUse i slot found
  have phase_eq : crew.shared.phase? i = some slot.phase := by
    rw [SharedPool.phase?, found, Option.map_some]
  have held := sound.owned i slot.phase
  rw [unowned, SharedPool.held, phase_eq] at held
  cases phase : slot.phase with
  | free => exact .inl rfl
  | waiting => exact .inr rfl
  | retired => exact absurd phase inUse.used
  | leased =>
    rw [phase] at held
    cases held
  | flushing =>
    rw [phase] at held
    cases held

/-- What threads that are through leave behind can be closed. -/
theorem settles (sound : crew.Sound) (finished : crew.Finished) : crew.Settles := by
  have shaped : crew.shared.counting.Shaped := by
    intro slot member
    rcases List.getElem?_of_mem member with ⟨i, found⟩
    exact (sound.inUse i slot found).toShaped
  have idle : ∀ slot ∈ crew.shared.counting.pool.slots,
      slot.phase = .free ∨ slot.phase = .waiting := by
    intro slot member
    rcases List.getElem?_of_mem member with ⟨i, found⟩
    exact sound.phase_of_finished finished found
  obtain ⟨closed, flushed, closing, -, counts⟩ :=
    Counting.close_eq_ok_of_idle shaped sound.grouped idle
  refine ⟨closed, flushed, closing, ?_⟩
  intro mark
  have total : crew.shared.addedWith mark + crew.shared.counting.pool.waitingWith mark =
      crew.shared.returnedWith mark := by
    refine SharedPool.addedWith_add_waitingWith fun i => sound.rests i ?_ mark
    intro flushing
    rcases SharedPool.phase?_eq_some_iff.1 flushing with ⟨marks, found⟩
    rcases sound.phase_of_finished finished found with free | waits
    · cases free
    · cases waits
  have count : closed.tally.count mark = (crew.shared.returnedWith mark).toUInt32 := by
    rw [counts, sound.counted, ← total]
    exact (UInt32.ofNat_add _ _).symm
  refine ⟨count, ?_⟩
  intro few
  rw [count]
  exact Nat.mod_eq_of_lt few

end Sound

/-! ## Every schedule -/

/-- A crew at clean mark sets starts sound, with a tally that has counted nothing. -/
theorem sound_clean {tally : Tally} {groupSize : Nat} (grouped : 0 < groupSize)
    (zero : ∀ mark, tally.count mark = 0) (slots threads : Nat) :
    (opening ⟨List.replicate slots ⟨.free, .empty tally.words⟩, groupSize, 0, 0, 0⟩ tally
      threads).Sound := by
  generalize clean : opening _ tally threads = crew
  have fresh : ∀ {i : Nat} {slot : Slot}, crew.shared.slot? i = some slot →
      slot = ⟨.free, .empty tally.words⟩ := by
    intro i slot found
    rw [← clean] at found
    exact List.eq_of_mem_replicate (List.mem_of_getElem? found)
  have idle : ∀ thread ∈ crew.threads, thread = ⟨[], .idle⟩ := by
    intro thread member
    rw [← clean] at member
    exact List.eq_of_mem_replicate member
  refine ⟨?grouped, ?inUse, ?owned, ?fits, ?rests, ?counted⟩
  case grouped =>
    rw [← clean]
    exact grouped
  case inUse =>
    intro i slot found
    rw [fresh found, ← clean]
    exact ⟨⟨MarkSet.tidy_empty _, rfl⟩, fun _ => rfl, fun used => by cases used⟩
  case owned =>
    intro i phase
    have none : crew.shared.held i phase = 0 := by
      apply Bool.toNat_eq_zero.2
      apply Bool.eq_false_iff.2
      intro both
      rcases Bool.and_eq_true_iff.1 both with ⟨isHeld, inPhase⟩
      rcases SharedPool.phase?_eq_some_iff.1 (of_decide_eq_true inPhase) with ⟨marks, found⟩
      cases fresh found
      cases isHeld
    rw [none]
    apply List.sum_eq_zero_iff_forall_eq_nat.2
    intro number listed
    rcases List.mem_map.1 listed with ⟨thread, member, rfl⟩
    rw [idle thread member]
    cases phase <;> rfl
  case fits =>
    intro thread member
    rw [idle thread member]
    exact fits_idle _ _
  case rests =>
    intro i _ mark
    have none : crew.shared.pending i mark = 0 := by
      rw [SharedPool.pending]
      cases found : crew.shared.slot? i with
      | none => rfl
      | some slot =>
        rw [fresh found]
        rfl
    rw [none, ← clean]
    rfl
  case counted =>
    intro mark
    rw [← clean]
    exact zero mark

theorem sound_opening [Memory] {space : Space} {tally : Tally} {pool : Pool} {slots groupSize : Nat}
    (counters : Tally.new space = .ok tally)
    (created : Pool.new slots tally.words groupSize = .ok pool) (threads : Nat) :
    (opening pool tally threads).Sound := by
  rcases Pool.of_new created with ⟨grouped, rfl⟩
  refine sound_clean grouped ?_ slots threads
  intro mark
  rw [Tally.of_new counters]
  exact Std.TreeMap.getD_emptyc

/-- Threads that use a new pool, with mark sets as large as the tally, are safe behind any steps, and
once they are through the pool can be closed with all that was given back counted. -/
theorem run_safe [Memory] {space : Space} {tally : Tally} {pool : Pool} {slots groupSize : Nat}
    (counters : Tally.new space = .ok tally)
    (created : Pool.new slots tally.words groupSize = .ok pool) (threads : Nat)
    (schedule : List (Nat × PoolRequest)) :
    ((opening pool tally threads).run schedule).Safe ∧
      (((opening pool tally threads).run schedule).Finished →
        ((opening pool tally threads).run schedule).Settles) := by
  have sound := (sound_opening counters created threads).run schedule
  exact ⟨sound.safe, sound.settles⟩

-- What follows runs where all memory can be had.
attribute [local instance] Memory.whole

/-- Steps of threads that are busy, to whom a request is nothing. -/
def goOn (threads : List Nat) : List (Nat × PoolRequest) :=
  threads.map (·, .lease)

/-- Two threads each give back a set with one mark. Flushing at the same time, each gets hold of one
of the two, which is too few for it, and lets it go; a flush behind that counts both. -/
def crossingFlushes : List (Nat × PoolRequest) :=
  [(0, .lease), (1, .lease)] ++ goOn [0, 1, 1] ++
    [(0, .set 0 5), (1, .set 1 5), (0, .giveBack 0), (1, .giveBack 1)] ++ goOn [1, 0] ++
    [(0, .flush 2), (1, .flush 2)] ++ goOn [0, 1, 1, 0, 0, 0, 1, 1, 0, 0] ++
    [(0, .flush 1)] ++ goOn [0, 1, 1, 0, 0, 0, 0, 0, 0, 0, 0, 0, 0]

theorem run_safe_of_crossing_flushes :
    ∃ tally pool final, Tally.new .trigrams = .ok tally ∧ Pool.new 3 tally.words 2 = .ok pool ∧
      final = (opening pool tally 2).run crossingFlushes ∧ final.Finished ∧ final.Safe ∧
      final.Settles ∧ final.shared.returnedWith 5 = 2 ∧ final.shared.counting.tally.count 5 = 2 := by
  have counters : Tally.new .trigrams = .ok (Tally.zero .trigrams) := rfl
  have created : ∃ pool, Pool.new 3 (Tally.zero .trigrams).words 2 = .ok pool := ⟨_, rfl⟩
  rcases created with ⟨pool, created⟩
  rcases run_safe counters created 2 crossingFlushes with ⟨safe, settles⟩
  rcases Pool.of_new created with ⟨-, rfl⟩
  have finished : Finished (run crossingFlushes (opening
      ⟨List.replicate 3 ⟨.free, .empty (Tally.zero .trigrams).words⟩, 2, 0, 0, 0⟩
      (Tally.zero .trigrams) 2)) := by
    unfold Finished
    decide +kernel
  exact ⟨_, _, _, counters, created, rfl, finished, safe, settles finished, by decide +kernel,
    by decide +kernel⟩

end Crew

end GramCensus
