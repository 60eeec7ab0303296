import GramCensus.Proofs.Pass.Progress

/-!
# How a pass ends

A pass starts with all in its files (`Pass.ledger_opening`) and ends with all its workers finished
(`Pass.accounts_closing`). If no reader has stopped by then, all files were opened, nothing is owed,
and closing the pool leaves in every counter the number of files that show its slot
(`Pass.count_eq_ok`).
-/

namespace GramCensus

namespace Pass

variable {settings : Settings} {space : Space} {files : List OpenedFile} {state : PassState}

/-! ## The start -/

/-- There is memory for the counters, the mark sets and the queues of a pass. -/
structure HasMemory [Memory] (settings : Settings) (space : Space) : Prop where
  counters : hasRoom .untouched 1 ((Tally.zero space).words * 64 * 4) = true
  sets : hasRoom .untouched (settings.workers + settings.groupSize)
    ((Tally.zero space).words * 8) = true
  queues : hasRoom .filled settings.queueDepth queuePlaceBytes = true

/-- The state that a pass starts in, where it starts. -/
def opening (settings : Settings) (space : Space) (files : List OpenedFile) : PassState where
  files
  workers := List.replicate settings.workers .fresh
  counting := {
    pool := {
      slots := (List.replicate (settings.workers + settings.groupSize)
        (MarkSet.empty (Tally.zero space).words)).map (⟨.free, ·⟩)
      groupSize := settings.groupSize
      flushes := 0, flushedSets := 0, waits := 0 }
    tally := .zero space }

/-- What settings that make sense have in common. -/
theorem check_eq_ok (valid : settings.check = .ok ()) :
    3 ≤ settings.gramLength ∧ 0 < settings.limit ∧ settings.overage.atLeastOne = true ∧
      0 < settings.workers ∧ 0 < settings.groupSize ∧ settings.groupSize ≤ largestGroup ∧
      0 < settings.chunkSize ∧ 0 < settings.queueDepth := by
  simp only [Settings.check] at valid
  split at valid
  · cases valid
  split at valid
  · cases valid
  split at valid
  · cases valid
  split at valid
  · cases valid
  split at valid
  · cases valid
  split at valid
  · cases valid
  split at valid
  · cases valid
  -- Every check has passed, and each of them gives one of the bounds.
  rename_i long limited overage crew group chunks queue
  simp only [Bool.or_eq_true, Bool.not_eq_true', not_or, Bool.not_eq_false] at overage
  refine ⟨by omega, by omega, overage.2, by omega, by omega, by omega, by omega, by omega⟩

theorem fits_plan (valid : settings.check = .ok ()) (space : Space) :
    (settings.plan space).Fits space := by
  rcases check_eq_ok valid with ⟨-, -, -, -, -, -, chunks, queue⟩
  refine ⟨chunks, queue, ?_⟩
  have positive := space.gramLength_pos
  simp only [Settings.plan]
  omega

theorem start_eq_ok [Memory] (starts : start settings space files = .ok state) :
    state = opening settings space files := by
  simp only [start, Tally.new, Pool.new, MarkSet.newEach, bind, Except.bind, pure, Except.pure,
    Except.map] at starts
  -- Reserving goes through three stages, and each of them may fail.
  cases counters : Buffer.reserve "counts array" .bits32 ((Tally.zero space).words * 64) with
  | error failure => simp [counters] at starts
  | ok =>
    simp only [counters] at starts
    split at starts
    case h_1 => cases starts
    case h_2 pool pooled =>
      split at pooled
      · cases pooled
      · split at pooled
        · cases pooled
        · cases sets : Buffer.reserveEach "bitset" (settings.workers + settings.groupSize) .bits64
              (Tally.zero space).words with
          | error failure => simp [sets] at pooled
          | ok =>
            simp only [sets] at pooled
            cases pooled
            cases queues : makeRoom .filled settings.queueDepth queuePlaceBytes with
            | error failure => simp [queues] at starts
            | ok =>
              simp only [queues] at starts
              cases starts
              rfl

theorem reserveEach_eq_ok [Memory] {purpose : String} {buffers : Nat} {width : CellWidth}
    {size : Nat} (some : 0 < buffers)
    (room : hasRoom .untouched buffers (size * width.bytes) = true) :
    Buffer.reserveEach purpose buffers width size = .ok () := by
  have below : buffers * (size * width.bytes) ≤ mostBytes :=
    Nat.le_trans (of_decide_eq_true room) (Memory.limit_le_mostBytes .untouched)
  have small : ¬ Buffer.largestWord < size * width.bytes := by
    have each := Nat.le_mul_of_pos_left (size * width.bytes) some
    rw [mostBytes] at below
    rw [Buffer.largestWord]
    omega
  simp only [Buffer.reserveEach, if_neg small, if_pos room]

/-- A pass starts where there is memory for it. -/
theorem start_of_hasMemory [Memory] (valid : settings.check = .ok ())
    (memory : HasMemory settings space) :
    start settings space files = .ok (opening settings space files) := by
  rcases check_eq_ok valid with ⟨-, -, -, crew, group, most, -, -⟩
  have counters : Buffer.reserve "counts array" .bits32 ((Tally.zero space).words * 64) = .ok () :=
    reserveEach_eq_ok Nat.one_pos memory.counters
  have sets : Buffer.reserveEach "bitset" (settings.workers + settings.groupSize) .bits64
      (Tally.zero space).words = .ok () := reserveEach_eq_ok (by omega) memory.sets
  have grouped : ¬ (settings.groupSize = 0 ∨ largestGroup < settings.groupSize) := by omega
  have someSets : settings.workers + settings.groupSize ≠ 0 := by omega
  simp only [start, Tally.new, Pool.new, MarkSet.newEach, bind, Except.bind, pure, Except.pure,
    Except.map, counters, if_neg grouped, if_neg someSets, sets, makeRoom_eq_ok_iff.2 memory.queues]
  rfl

/-- What the files of a pass bring is still in them when it starts. -/
theorem ledger_opening {quantity : Quantity}
    (fresh : quantity.worker (opening settings space files).counting.pool .fresh = 0)
    (none : quantity.counting (opening settings space files).counting = 0) :
    (opening settings space files).ledger quantity = (files.map quantity.file).sum := by
  have workers : ((opening settings space files).workers.map
      (quantity.worker (opening settings space files).counting.pool)).sum = 0 := by
    rw [opening, List.map_replicate, List.sum_replicate_nat]
    rw [opening] at fresh
    rw [fresh, Nat.mul_zero]
  rw [PassState.ledger, workers, none]
  exact Nat.zero_add _

/-- Nothing was received before a pass starts. -/
theorem received_opening (sign : Sign) :
    sign.received (opening settings space files).counting = 0 := by
  have fresh : ∀ slot ∈ (opening settings space files).counting.pool.slots,
      slot.phase ≠ .waiting := by
    intro slot member
    rcases List.mem_map.1 member with ⟨marks, -, rfl⟩
    exact SlotPhase.noConfusion
  cases sign with
  | slot mark =>
    have waits : (opening settings space files).counting.pool.waitingWith mark = 0 := by
      apply List.countP_eq_zero.2
      intro slot member waits
      exact fresh slot member (of_decide_eq_true (Bool.and_eq_true_iff.1 waits).1)
    have count : ((opening settings space files).counting.tally.count mark).toNat = 0 := by
      rw [Tally.count, opening, Tally.zero, Std.TreeMap.getD_emptyc]
      rfl
    rw [Sign.received, Counting.received, waits, count]
  | any =>
    have waits : (opening settings space files).counting.waiting = 0 := by
      apply List.countP_eq_zero.2
      intro slot member waits
      exact fresh slot member (of_decide_eq_true waits)
    rw [Sign.received, waits]
    rfl

/-- A pass over files with ascending numbers starts sound. -/
theorem sound_opening (valid : settings.check = .ok ())
    (ascending : files.Pairwise fun a b => a.id < b.id) :
    (opening settings space files).Sound (settings.plan space) space := by
  rcases check_eq_ok valid with ⟨-, -, -, crew, group, -, -, -⟩
  -- All slots are free, so nothing is leased.
  have vacant : ∀ i, (opening settings space files).counting.pool.leased? i = none := by
    intro i
    cases leased : (opening settings space files).counting.pool.leased? i with
    | none => rfl
    | some marks =>
      have member := List.mem_of_getElem? (Pool.leased?_eq_some_iff.1 leased)
      rcases List.mem_map.1 member with ⟨fresh, -, same⟩
      cases same
  refine ⟨.fresh settings.workers ascending, ⟨?settled, group⟩, rfl, ?roomy, ?leases⟩
  case settled =>
    intro slot member
    rcases List.mem_map.1 member with ⟨marks, listed, rfl⟩
    obtain rfl := List.eq_of_mem_replicate listed
    exact ⟨MarkSet.tidy_empty _, rfl, fun _ => rfl, .inl rfl⟩
  case roomy =>
    simp only [opening, Pool.size, List.length_map, List.length_replicate]
    omega
  case leases =>
    intro slot
    rw [vacant]
    simp only [opening, List.map_replicate, List.sum_replicate_nat]
    exact Nat.mul_zero _

end Pass

namespace Worker

variable {plan : PassPlan} {space : Space} {files : List OpenedFile} {worker : Worker}
  {counting : Counting}

/-- A worker that is finished has nothing in its hands. -/
theorem Sound.counter_eq_done (sound : worker.Sound plan) (finished : worker.isFinished = true) :
    worker.counter = .done ∧ worker.reader.isFinished = true := by
  rw [isFinished, Bool.and_eq_true] at finished
  refine ⟨?_, finished.1⟩
  cases counts : worker.counter with
  | counting lease => simp [counts, Counter.isFinished] at finished
  | done => rfl
  | failed failure => exact absurd counts (sound.counts failure)

/-- A worker that is finished owes nothing. -/
theorem Sound.owes_eq_zero (sound : worker.Sound plan) (finished : worker.isFinished = true)
    (pool : Pool) (sign : Sign) : worker.owes space pool sign = 0 := by
  rcases sound.counter_eq_done finished with ⟨done, reader⟩
  rw [owes, pieces, counterPieces, lease?, done, (sound.drained done).1,
    readerPieces_of_isFinished reader]
  rfl

theorem stopped_of_readStep [Memory] {after : List OpenedFile × Worker}
    (step : ReadStep plan files worker after) (stopped : worker.reader.Stopped) :
    after.2.reader.Stopped := by
  cases step with
  | waits => exact stopped
  | ends idle => rcases stopped with same | same <;> cases idle.symm.trans same
  | opens idle => rcases stopped with same | same <;> cases idle.symm.trans same
  | reads reading => rcases stopped with same | same <;> cases reading.symm.trans same
  | closes reading => rcases stopped with same | same <;> cases reading.symm.trans same
  | stops reading now => exact now

end Worker

/-- When all workers are finished all files are opened, unless a reader has stopped. -/
theorem InOrder.files_eq_nil {plan : PassPlan} {files : List OpenedFile} {crew : List Worker}
    (inOrder : InOrder plan files crew) (finished : ∀ worker ∈ crew, worker.isFinished = true)
    (some : 0 < crew.length) (running : ¬ ∃ worker ∈ crew, worker.reader.Stopped) : files = [] := by
  rcases List.exists_mem_of_length_pos some with ⟨worker, member⟩
  refine inOrder.opened ⟨worker, member, ?_⟩
  have reader := ((inOrder.workers worker member).counter_eq_done (finished worker member)).2
  cases reads : worker.reader with
  | idle => simp [reads, Reader.isFinished] at reader
  | reading => simp [reads, Reader.isFinished] at reader
  | done => rfl
  | broken => exact absurd ⟨worker, member, .inl reads⟩ running
  | exhausted => exact absurd ⟨worker, member, .inr reads⟩ running

namespace PassState

variable {plan : PassPlan} {space : Space} {state : PassState}

/-! ## What holds of all states of a pass -/

def Stopped (state : PassState) : Prop :=
  ∃ worker ∈ state.workers, worker.reader.Stopped

/-- What holds of a pass of some workers between two turns. -/
structure Accounts (workers : Nat) (plan : PassPlan) (space : Space) (state : PassState) :
    Prop where
  sound : state.Sound plan space
  crew : state.workers.length = workers

/-- Once a reader has stopped, some reader has for good. -/
theorem stopped_step [Memory] {after : PassState} (step : state.Step plan space after)
    (stopped : state.Stopped) : after.Stopped := by
  cases step with
  | absent => exact stopped
  | reads found step =>
    refine (exists_mem_set_iff _ found).2 ?_
    rcases (exists_mem_iff found).1 stopped with own | other
    · exact .inl (Worker.stopped_of_readStep step own)
    · exact .inr other
  | counts found step => exact (exists_reader_set found (Worker.reader_of_countStep step)).2 stopped

theorem accounts_turn [Memory] {workers : Nat} (made : space.Made) (fits : plan.Fits space)
    (state : PassState) (t : Turn) (accounts : state.Accounts workers plan space) :
    (state.turn plan t).Accounts workers plan space := by
  have step := step_turn made fits accounts.sound t
  generalize state.turn plan t = after at step
  refine ⟨sound_step fits accounts.sound step, ?_⟩
  cases step with
  | absent => exact accounts.crew
  | reads => exact List.length_set.trans accounts.crew
  | counts => exact List.length_set.trans accounts.crew

/-- Unless a reader has stopped, the ledger says what it said at first. -/
theorem ledger_turn [Memory] {quantity : Quantity} {modulus total : Nat} (made : space.Made)
    (fits : plan.Fits space) (conserved : quantity.Conserved plan space modulus)
    (state : PassState) (t : Turn) (sound : state.Sound plan space)
    (even : ¬ state.Stopped → state.ledger quantity ≡ total [MOD modulus])
    (running : ¬ (state.turn plan t).Stopped) :
    (state.turn plan t).ledger quantity ≡ total [MOD modulus] := by
  have step := step_turn made fits sound t
  have still : ∀ worker ∈ (state.turn plan t).workers, ¬ worker.reader.Stopped :=
    fun worker member stopped => running ⟨worker, member, stopped⟩
  exact (ledger_step conserved sound step still).trans
    (even fun stopped => running (stopped_step step stopped))

/-! ## The end -/

/-- At the end no worker has anything in its hands. -/
theorem Sound.counter_eq_done (sound : state.Sound plan space) (finished : state.isFinished = true)
    {worker : Worker} (member : worker ∈ state.workers) :
    worker.counter = .done ∧ worker.reader.isFinished = true :=
  (sound.workers worker member).counter_eq_done (List.all_eq_true.1 finished worker member)

theorem Sound.returned (sound : state.Sound plan space) (finished : state.isFinished = true)
    (slot : Nat) : state.counting.pool.leased? slot = none := by
  have none : (state.workers.map (Worker.holds slot)).sum = 0 := by
    apply List.sum_eq_zero_iff_forall_eq_nat.2
    intro holds listed
    rcases List.mem_map.1 listed with ⟨worker, member, rfl⟩
    rw [Worker.holds, Worker.lease?, (sound.counter_eq_done finished member).1]
    rfl
  rw [sound.leases] at none
  cases leased : state.counting.pool.leased? slot with
  | none => rfl
  | some marks => simp [leased] at none

theorem Sound.owes_eq_zero (sound : state.Sound plan space) (finished : state.isFinished = true)
    {worker : Worker} (member : worker ∈ state.workers) (pool : Pool) (sign : Sign) :
    worker.owes space pool sign = 0 :=
  (sound.workers worker member).owes_eq_zero (List.all_eq_true.1 finished worker member) pool sign

/-- At the end all files are opened, unless a reader has stopped. -/
theorem Accounts.files_eq_nil {workers : Nat} (accounts : state.Accounts workers plan space)
    (finished : state.isFinished = true) (some : 0 < workers) (running : ¬ state.Stopped) :
    state.files = [] := by
  rw [← accounts.crew] at some
  exact accounts.sound.toInOrder.files_eq_nil (List.all_eq_true.1 finished) some running

/-- At the end a worker has failed exactly if its reader has stopped. -/
theorem Sound.failure?_worker (sound : state.Sound plan space) (finished : state.isFinished = true)
    {worker : Worker} (member : worker ∈ state.workers) :
    worker.failure? = if worker.reader = .broken then some (.workerPanic .reader)
      else if worker.reader = .exhausted then some .exhausted else none := by
  rw [Worker.failure?, (sound.counter_eq_done finished member).1]
  cases worker.reader <;> rfl

/-- At the end a pass has failed exactly if some reader has stopped. -/
theorem Sound.failure?_eq_none_iff (sound : state.Sound plan space)
    (finished : state.isFinished = true) : state.failure? = none ↔ ¬ state.Stopped := by
  have heads : state.failure? = none ↔ state.workers.filterMap Worker.failure? = [] := by
    rw [failure?]
    cases state.workers.filterMap Worker.failure? <;> simp
  rw [heads, List.filterMap_eq_nil_iff]
  constructor
  · rintro none ⟨worker, member, stopped⟩
    have quiet := none worker member
    rw [sound.failure?_worker finished member] at quiet
    rcases stopped with broken | exhausted
    · simp [broken] at quiet
    · simp [exhausted] at quiet
  · intro running worker member
    have still : ¬ worker.reader.Stopped := fun stopped => running ⟨worker, member, stopped⟩
    rw [sound.failure?_worker finished member, if_neg fun broken => still (.inl broken),
      if_neg fun exhausted => still (.inr exhausted)]

end PassState

namespace Pass

variable {settings : Settings} {space : Space} {files : List OpenedFile}

theorem accounts_opening (valid : settings.check = .ok ())
    (ascending : files.Pairwise fun a b => a.id < b.id) :
    (opening settings space files).Accounts settings.workers (settings.plan space) space :=
  ⟨sound_opening valid ascending, List.length_replicate⟩

variable [Memory]

def closing (settings : Settings) (space : Space) (files : List OpenedFile)
    (schedule : List Turn) : PassState :=
  run settings space schedule (opening settings space files)

/-- Every pass ends finished and with its accounts in order. -/
theorem accounts_closing (valid : settings.check = .ok ()) (made : space.Made)
    (ascending : files.Pairwise fun a b => a.id < b.id) (schedule : List Turn) :
    (closing settings space files schedule).Accounts settings.workers (settings.plan space) space ∧
      (closing settings space files schedule).isFinished = true := by
  have fits := fits_plan valid space
  refine ⟨run_induction (PassState.accounts_turn made fits) schedule
    (accounts_opening valid ascending),
    isFinished_run made fits (sound_opening valid ascending) ?_ schedule⟩
  have enough := work_start_le files settings.workers
  simpa only [PassState.work, opening, List.length_replicate] using enough

/-- In a pass in which no reader stops, all that the files bring is at the end with the workers or
received. -/
theorem ledger_closing {quantity : Quantity} {modulus : Nat} (valid : settings.check = .ok ())
    (made : space.Made) (ascending : files.Pairwise fun a b => a.id < b.id)
    (conserved : quantity.Conserved (settings.plan space) space modulus)
    (fresh : quantity.worker (opening settings space files).counting.pool .fresh = 0)
    (none : quantity.counting (opening settings space files).counting = 0)
    {schedule : List Turn} (running : ¬ (closing settings space files schedule).Stopped) :
    quantity.counting (closing settings space files schedule).counting +
        ((closing settings space files schedule).workers.map
          (quantity.worker (closing settings space files schedule).counting.pool)).sum ≡
      (files.map quantity.file).sum [MOD modulus] := by
  rcases check_eq_ok valid with ⟨-, -, -, crew, -, -, -, -⟩
  rcases accounts_closing valid made ascending schedule with ⟨accounts, finished⟩
  have fits := fits_plan valid space
  have sound : (opening settings space files).Sound (settings.plan space) space :=
    sound_opening valid ascending
  have even := (@run_induction settings space _ _
    (fun state => state.Sound (settings.plan space) space ∧ (¬ state.Stopped →
      state.ledger quantity ≡ (files.map quantity.file).sum [MOD modulus]))
    (fun state t both => ⟨PassState.sound_turn made fits state t both.1,
      PassState.ledger_turn made fits conserved state t both.1 both.2⟩)
    schedule ⟨sound, fun _ => by rw [ledger_opening fresh none]⟩).2 running
  have opened := accounts.files_eq_nil finished crew running
  change PassState.ledger quantity (closing settings space files schedule) ≡ _ [MOD modulus] at even
  rwa [PassState.ledger, opened, List.map_nil, List.sum_nil, Nat.add_zero] at even

/-- In a pass in which no reader stops, the sets that are received with a sign are as many as the
files that show it. -/
theorem received_closing (valid : settings.check = .ok ()) (made : space.Made)
    (ascending : files.Pairwise fun a b => a.id < b.id) {schedule : List Turn}
    (running : ¬ (closing settings space files schedule).Stopped) (sign : Sign) :
    sign.received (closing settings space files schedule).counting ≡
      files.countP (Worker.fileHas (settings.plan space) space sign) [MOD sign.modulus] := by
  rcases accounts_closing valid made ascending schedule with ⟨accounts, finished⟩
  have even := ledger_closing valid made ascending
    (sign.conserved_quantity (fits_plan valid space)) rfl (received_opening sign) running
  -- At the end no worker owes anything.
  have none : ((closing settings space files schedule).workers.map
      ((sign.quantity (settings.plan space) space).worker
        (closing settings space files schedule).counting.pool)).sum = 0 := by
    apply List.sum_eq_zero_iff_forall_eq_nat.2
    intro owes listed
    rcases List.mem_map.1 listed with ⟨worker, member, rfl⟩
    exact accounts.sound.owes_eq_zero finished member _ sign
  rw [none, Nat.add_zero] at even
  rwa [← sum_map_toNat]

/-- A pass in which no reader stops is closed with the number of files that show a slot in its
counter, modulo the range of the counter. -/
theorem close_closing (valid : settings.check = .ok ()) (made : space.Made)
    (ascending : files.Pairwise fun a b => a.id < b.id) {schedule : List Turn}
    (running : ¬ (closing settings space files schedule).Stopped) :
    ∃ closed flushed, (closing settings space files schedule).counting.close =
        (closed, .ok flushed) ∧ closed.tally.space = space ∧
      ∀ mark, (closed.tally.count mark).toNat =
        files.countP (Worker.fileHas (settings.plan space) space (.slot mark)) % 2 ^ 32 := by
  rcases accounts_closing valid made ascending schedule with ⟨accounts, finished⟩
  have received := received_closing valid made ascending running
  generalize closing settings space files schedule = final at *
  obtain ⟨closed, flushed, closes, same, counts⟩ := Counting.close_eq_ok accounts.sound.pooled
    (accounts.sound.returned finished)
  exact ⟨closed, flushed, closes, same.trans accounts.sound.space_eq, fun mark =>
    (counts mark).trans (received (.slot mark))⟩

theorem count_of_start (starts : start settings space files = .ok (opening settings space files))
    (schedule : List Turn) :
    count settings space files schedule =
      match (closing settings space files schedule).failure? with
      | some failure => .error failure
      | none =>
        match (closing settings space files schedule).counting.close with
        | (_, .error failure) => .error failure
        | (closed, .ok _) => .ok (closed.tally,
            { closing settings space files schedule with counting := closed }.totals) := by
  simp only [count, starts, bind, Except.bind]
  rfl

theorem start_of_count {schedule : List Turn} {tally : Tally} {totals : PassTotals}
    (counted : count settings space files schedule = .ok (tally, totals)) :
    start settings space files = .ok (opening settings space files) := by
  cases started : start settings space files with
  | error failure => simp [count, started, bind, Except.bind] at counted
  | ok state => rw [start_eq_ok started]

/-- A pass that succeeds has come to its end without a reader that stopped, and was closed. -/
theorem closed_of_count (valid : settings.check = .ok ()) (made : space.Made)
    (ascending : files.Pairwise fun a b => a.id < b.id) {schedule : List Turn} {tally : Tally}
    {totals : PassTotals} (counted : count settings space files schedule = .ok (tally, totals)) :
    ¬ (closing settings space files schedule).Stopped ∧
      ∃ closed flushed, (closing settings space files schedule).counting.close =
          (closed, .ok flushed) ∧ tally = closed.tally ∧
        totals = { closing settings space files schedule with counting := closed }.totals := by
  rw [count_of_start (start_of_count counted)] at counted
  rcases accounts_closing valid made ascending schedule with ⟨accounts, finished⟩
  split at counted
  case h_1 => cases counted
  case h_2 quiet =>
    split at counted
    case h_1 => cases counted
    case h_2 closed flushed closes =>
      cases counted
      exact ⟨(accounts.sound.failure?_eq_none_iff finished).1 quiet, closed, flushed, closes, rfl,
        rfl⟩

/-- A pass that succeeds leaves in every counter the number of files that show its slot. -/
theorem count_eq_ok (valid : settings.check = .ok ()) (made : space.Made)
    (few : files.length < 2 ^ 32) (ascending : files.Pairwise fun a b => a.id < b.id)
    {schedule : List Turn} {tally : Tally} {totals : PassTotals}
    (counted : count settings space files schedule = .ok (tally, totals)) :
    tally.space = space ∧ ∀ mark, (tally.count mark).toNat =
      files.countP (Worker.fileHas (settings.plan space) space (.slot mark)) := by
  rcases closed_of_count valid made ascending counted with
    ⟨running, other, flushed, closes, rfl, -⟩
  obtain ⟨closed, count, again, space_eq, counts⟩ := close_closing valid made ascending running
  rw [closes] at again
  cases again
  refine ⟨space_eq, fun mark => ?_⟩
  rw [counts, Nat.mod_eq_of_lt (Nat.lt_of_le_of_lt List.countP_le_length few)]

/-- A pass that has memory succeeds unless a reader stops. -/
theorem count_of_not_stopped (valid : settings.check = .ok ()) (made : space.Made)
    (ascending : files.Pairwise fun a b => a.id < b.id) (memory : HasMemory settings space)
    {schedule : List Turn} (running : ¬ (closing settings space files schedule).Stopped) :
    ∃ tally totals, count settings space files schedule = .ok (tally, totals) := by
  rcases accounts_closing valid made ascending schedule with ⟨accounts, finished⟩
  rcases close_closing valid made ascending running with ⟨closed, flushed, closes, -, -⟩
  have quiet := (accounts.sound.failure?_eq_none_iff finished).2 running
  rw [count_of_start (start_of_hasMemory valid memory), quiet, closes]
  exact ⟨_, _, rfl⟩

end Pass

end GramCensus
