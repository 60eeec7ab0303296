import GramCensus.Proofs.Pass.Outcome
import GramCensus.Proofs.Pass.Threaded

/-!
# Passes with threads

In a pass with threads everybody may be interrupted after any step at the pool. Between two turns the
crew of threads is sound (`ThreadedPass.Sound`), and the mark sets on record, what the workers owe and
the files that nobody has opened make up the corpus (`ThreadedPass.accounts_turn`). So a pass that comes
to its end has on record, for every sign, as many mark sets as there are files that show it, and
closing its pool leaves the same counters as a pass whose workers are not interrupted
(`Pass.interrupted_agrees`).
-/

namespace GramCensus

/-! ## Turns of readers -/

namespace Worker

variable [Memory] {plan : PassPlan} {files : List OpenedFile} {worker : Worker}
  {after : List OpenedFile × Worker}

theorem counter_of_readStep (step : ReadStep plan files worker after) :
    after.2.counter = worker.counter := by
  cases step <;> rfl

/-- A reader that is finished does nothing, and another one may add to the queue. -/
theorem queue_of_readStep (step : ReadStep plan files worker after) :
    after.2 = worker ∨ worker.reader.isFinished = false ∧
      ∃ new, after.2.queue = worker.queue ++ new := by
  cases step with
  | waits => exact .inl rfl
  | ends idle => exact .inr ⟨by rw [idle]; rfl, [], (List.append_nil _).symm⟩
  | opens idle => exact .inr ⟨by rw [idle]; rfl, [], (List.append_nil _).symm⟩
  | reads reading => exact .inr ⟨by rw [reading]; rfl, _, rfl⟩
  | closes reading => exact .inr ⟨by rw [reading]; rfl, [], (List.append_nil _).symm⟩
  | stops reading => exact .inr ⟨by rw [reading]; rfl, [], (List.append_nil _).symm⟩

theorem drained_of_readStep (step : ReadStep plan files worker after)
    (drained : worker.queue = [] → worker.reader.isFinished = true) :
    after.2.queue = [] → after.2.reader.isFinished = true := by
  intro empty
  rcases queue_of_readStep step with same | ⟨running, new, queue_eq⟩
  · rw [same] at empty ⊢
    exact drained empty
  · rw [queue_eq, List.append_eq_nil_iff] at empty
    rw [drained empty.1] at running
    cases running

/-- A turn of the reader adds nothing for a mark set that the counter is done with. -/
theorem IsDoneWith.reads {lease : Lease} (done : worker.IsDoneWith lease)
    (step : ReadStep plan files worker after) : after.2.IsDoneWith lease := by
  refine ⟨?_, drained_of_readStep step done.drained⟩
  intro chunk rest queued
  rcases queue_of_readStep step with same | ⟨running, new, queue_eq⟩
  · rw [same] at queued
    exact done.other chunk rest queued
  · cases before : worker.queue with
    | nil =>
      rw [done.drained before] at running
      cases running
    | cons first others =>
      rw [queue_eq, before] at queued
      cases queued
      exact done.other _ others before

/-- A turn of the reader leaves the thread where it is. -/
theorem Busy.reads {errand : Option Errand} {task : Task} (busy : worker.Busy errand task)
    (step : ReadStep plan files worker after) : after.2.Busy errand task := by
  have counter_eq := counter_of_readStep step
  have some : worker.queue ≠ [] → after.2.queue ≠ [] := by
    intro some
    rcases queue_of_readStep step with same | ⟨-, new, queue_eq⟩
    · rwa [same]
    · rw [queue_eq]
      exact List.append_ne_nil_of_left_ne_nil some new
  cases busy with
  | free => exact .free
  | leases counts queued place => exact .leases (counter_eq.trans counts) (some queued) place
  | makesWay counts queued isFlush =>
    exact .makesWay (counter_eq.trans counts) (some queued) isFlush
  | givesBack counts done place => exact .givesBack (counter_eq.trans counts) (done.reads step) place
  | flushes counts drained isFlush =>
    exact .flushes (counter_eq.trans counts) (drained_of_readStep step drained) isFlush

end Worker

/-! ## What turns keep -/

namespace ThreadedPass

variable {plan : PassPlan} {space : Space} {state : ThreadedPass}

/-- The threads of a pass at its pool. -/
def crew (state : ThreadedPass) : Crew :=
  ⟨state.shared, state.workers.map (·.thread)⟩

/-- The pass without its threads. -/
def plain (state : ThreadedPass) : PassState :=
  ⟨state.files, state.workers.map (·.worker), state.shared.counting⟩

/-- What holds between two turns of a pass with threads. -/
structure Sound (plan : PassPlan) (space : Space) (state : ThreadedPass) : Prop
    extends InOrder plan state.files (state.workers.map (·.worker)) where
  pooled : state.crew.Sound
  space_eq : state.shared.counting.tally.space = space
  threads : ∀ own ∈ state.workers, own.Sound

/-- What was given back with a sign, what the workers owe of it, and the files with it that nobody has
opened. -/
def ledger (plan : PassPlan) (space : Space) (sign : Sign) (state : ThreadedPass) : Nat :=
  state.shared.returnedOn sign +
    (state.workers.map fun own => own.worker.owes space state.shared.counting.pool sign).sum +
    state.files.countP (Worker.fileHas plan space sign)

section

variable {k : Nat} {own : ThreadedWorker} (found : state.workers[k]? = some own)

include found

theorem getElem?_workers : (state.workers.map (·.worker))[k]? = some own.worker := by
  rw [List.getElem?_map, found, Option.map_some]

theorem getElem?_threads : state.crew.threads[k]? = some own.thread := by
  rw [crew, List.getElem?_map, found, Option.map_some]

/-- A turn of a reader. -/
theorem sound_of_reads [Memory] (sound : state.Sound plan space) (fits : plan.Fits space)
    {after : List OpenedFile × Worker} (step : own.worker.ReadStep plan state.files after) :
    Sound plan space { state with
      files := after.1, workers := state.workers.set k { own with worker := after.2 } } := by
  have member := List.mem_of_getElem? found
  refine ⟨?inOrder, ?pooled, sound.space_eq, ?threads⟩
  case inOrder =>
    rw [List.map_set]
    exact sound.toInOrder.reads fits (getElem?_workers found) step
  case pooled =>
    have same := set_eq_self (getElem?_threads found)
    rw [crew, List.map_set]
    rw [crew] at same
    rw [same]
    exact sound.pooled
  case threads =>
    intro other listed
    rcases List.mem_or_eq_of_mem_set listed with old | rfl
    · exact sound.threads other old
    · have before := sound.threads own member
      refine ⟨?_, before.busy.reads step⟩
      rw [Worker.lease?_of_readStep step]
      exact before.leases_eq

/-- A turn of a counter. -/
theorem sound_of_counts (sound : state.Sound plan space) {outcome : SharedPool × ThreadedWorker}
    (turned : own.Turned space state.shared outcome) :
    Sound plan space { state with
      shared := outcome.1, workers := state.workers.set k outcome.2 } := by
  have own_sound := sound.workers own.worker (List.mem_of_getElem? (getElem?_workers found))
  refine ⟨?inOrder, ?pooled, turned.space_eq.trans sound.space_eq, ?threads⟩
  case inOrder =>
    rw [List.map_set]
    exact sound.toInOrder.counts (getElem?_workers found)
      (Worker.sound_of_threadStep own_sound turned.step) (Worker.reader_of_threadStep turned.step)
      (Worker.fileIds_of_threadStep turned.step)
  case pooled =>
    rw [crew, List.map_set]
    exact sound.pooled.advances (getElem?_threads found) turned.advances
  case threads =>
    intro other listed
    rcases List.mem_or_eq_of_mem_set listed with old | rfl
    · exact sound.threads other old
    · exact turned.sound

/-! ## The ledger -/

/-- A turn of a counter is nothing to the mark sets of other workers. -/
theorem owes_of_ne (sound : state.Sound plan space) {outcome : SharedPool × ThreadedWorker}
    (turned : own.Turned space state.shared outcome) {j : Nat} {other : ThreadedWorker}
    (different : j ≠ k) (second : state.workers[j]? = some other) (sign : Sign) :
    other.worker.owes space outcome.1.counting.pool sign =
      other.worker.owes space state.shared.counting.pool sign := by
  refine Worker.owes_congr ?_ sign
  intro held lease
  have others := sound.threads other (List.mem_of_getElem? second)
  rcases others.leased sound.pooled (getElem?_threads second) lease with ⟨marks, leased⟩
  have member : held.slot ∈ other.thread.owns .leased := by
    rw [Thread.owns, others.leases_eq, lease]
    exact List.mem_singleton_self _
  exact SharedPool.leased?_congr (turned.slot?_eq _ (SharedPool.phase?_eq_some_iff.2 ⟨marks, leased⟩)
    (sound.pooled.not_mem_of_mem (getElem?_threads second) (getElem?_threads found)
      (Ne.symm different) member))

theorem ledger_of_counts (sound : state.Sound plan space) {outcome : SharedPool × ThreadedWorker}
    (turned : own.Turned space state.shared outcome) (sign : Sign) :
    ledger plan space sign { state with
      shared := outcome.1, workers := state.workers.set k outcome.2 } =
        state.ledger plan space sign := by
  have total := @sum_map_set _
    (fun own => own.worker.owes space state.shared.counting.pool sign)
    (fun own => own.worker.owes space outcome.1.counting.pool sign) _ _ _ outcome.2 found
    fun j other different second => owes_of_ne found sound turned different second sign
  have moved := Worker.owed_of_threadStep turned.step sign
  simp only [ledger]
  dsimp only at total moved
  omega

theorem ledger_of_reads [Memory] (sound : state.Sound plan space) (fits : plan.Fits space)
    {after : List OpenedFile × Worker} (step : own.worker.ReadStep plan state.files after)
    (running : ¬ after.2.reader.Stopped) (sign : Sign) :
    ledger plan space sign { state with
      files := after.1, workers := state.workers.set k { own with worker := after.2 } } =
        state.ledger plan space sign := by
  have member := List.mem_of_getElem? (getElem?_workers found)
  have total := @sum_map_set _
    (fun own : ThreadedWorker => own.worker.owes space state.shared.counting.pool sign)
    (fun own : ThreadedWorker => own.worker.owes space state.shared.counting.pool sign) _ _ _
    { own with worker := after.2 } found fun _ _ _ _ => rfl
  have moved := Worker.owed_of_readStep fits (sound.workers _ member) step (sound.ahead _ member)
    running state.shared.counting.pool sign
  simp only [ledger]
  dsimp only at total
  omega

end

/-! ## Every turn -/

section

variable [Memory]

/-- What a turn does: nothing, or a step of the reader or of the counter of one worker. -/
inductive Step (plan : PassPlan) (space : Space) (state : ThreadedPass) : ThreadedPass → Prop where
  | absent : Step plan space state state
  | reads {k : Nat} {own : ThreadedWorker} {after : List OpenedFile × Worker} :
      state.workers[k]? = some own → own.worker.ReadStep plan state.files after →
        Step plan space state { state with
          files := after.1, workers := state.workers.set k { own with worker := after.2 } }
  | counts {k : Nat} {own : ThreadedWorker} {outcome : SharedPool × ThreadedWorker} :
      state.workers[k]? = some own → own.Turned space state.shared outcome →
        Step plan space state { state with
          shared := outcome.1, workers := state.workers.set k outcome.2 }

theorem step_turn (made : space.Made) (fits : plan.Fits space) (sound : state.Sound plan space)
    (t : Turn) : state.Step plan space (state.turn plan t) := by
  rw [turn]
  split
  case h_1 => exact .absent
  case h_2 own found =>
    split
    case h_1 =>
      have own_sound := sound.workers _ (List.mem_of_getElem? (getElem?_workers found))
      exact .reads found (Worker.readStep_readTurn fits own_sound)
    case h_2 =>
      exact .counts found (ThreadedWorker.turned (sound.threads own (List.mem_of_getElem? found))
        sound.pooled (getElem?_threads found) made sound.space_eq)

theorem stopped_step {after : ThreadedPass} (step : state.Step plan space after)
    (stopped : state.plain.Stopped) : after.plain.Stopped := by
  cases step with
  | absent => exact stopped
  | @reads k own after found step =>
    have same : PassState.Step plan space state.plain _ := .reads (getElem?_workers found) step
    have later := PassState.stopped_step same stopped
    rw [PassState.Stopped, plain, List.map_set]
    exact later
  | counts found turned =>
    rw [PassState.Stopped, plain, List.map_set]
    exact (exists_reader_set (getElem?_workers found)
      (Worker.reader_of_threadStep turned.step)).2 stopped

/-- What holds between two turns of a pass over a corpus: its ledger has the numbers of the corpus,
unless a reader has stopped. -/
structure Accounts (workers : Nat) (corpus : Sign → Nat) (plan : PassPlan) (space : Space)
    (state : ThreadedPass) : Prop where
  sound : state.Sound plan space
  crew : state.workers.length = workers
  even : ¬ state.plain.Stopped → ∀ sign, state.ledger plan space sign = corpus sign

theorem accounts_turn {workers : Nat} {corpus : Sign → Nat} (made : space.Made)
    (fits : plan.Fits space) (t : Turn) (accounts : state.Accounts workers corpus plan space) :
    (state.turn plan t).Accounts workers corpus plan space := by
  have sound := accounts.sound
  have step := step_turn made fits sound t
  generalize state.turn plan t = after at step
  have before : ¬ after.plain.Stopped → ¬ state.plain.Stopped :=
    fun running stopped => running (stopped_step step stopped)
  cases step with
  | absent => exact accounts
  | @reads k own after found step =>
    refine ⟨sound_of_reads found sound fits step, List.length_set.trans accounts.crew, ?_⟩
    intro running sign
    rw [← accounts.even (before running) sign]
    refine ledger_of_reads found sound fits step (fun stopped => running ⟨after.2, ?_, stopped⟩) sign
    rw [plain, List.map_set]
    exact List.mem_set (List.getElem?_eq_some_iff.1 (getElem?_workers found)).1 _
  | counts found turned =>
    refine ⟨sound_of_counts found sound turned, List.length_set.trans accounts.crew, ?_⟩
    intro running sign
    rw [← accounts.even (before running) sign]
    exact ledger_of_counts found sound turned sign

theorem accounts_run {workers : Nat} {corpus : Sign → Nat} (made : space.Made)
    (fits : plan.Fits space) (schedule : List Turn)
    (accounts : state.Accounts workers corpus plan space) :
    (state.run plan schedule).Accounts workers corpus plan space := by
  induction schedule generalizing state with
  | nil => exact accounts
  | cons t rest ih => exact ih (accounts_turn made fits t accounts)

end

/-! ## The end -/

/-- Threads whose workers are finished are through. -/
theorem Sound.finished (sound : state.Sound plan space) (finished : state.plain.isFinished = true) :
    state.crew.Finished := by
  intro thread member
  rcases List.mem_map.1 member with ⟨own, listed, rfl⟩
  have worker : own.worker ∈ state.workers.map (·.worker) := List.mem_map_of_mem listed
  have done := ((sound.workers _ worker).counter_eq_done
    (List.all_eq_true.1 finished own.worker worker)).1
  rcases sound.threads own listed with ⟨leases_eq, busy⟩
  rw [Worker.lease?, done] at leases_eq
  refine ⟨leases_eq, ?_⟩
  generalize own.thread.task = task at busy
  generalize own.errand = errand at busy
  -- On any errand the counter would still be counting.
  cases busy with
  | free => rfl
  | leases counts => cases done.symm.trans counts
  | makesWay counts => cases done.symm.trans counts
  | givesBack counts => cases done.symm.trans counts
  | flushes counts => cases done.symm.trans counts

/-- At the end all is on record that the corpus has, unless a reader has stopped. -/
theorem Accounts.returnedOn_eq {workers : Nat} {corpus : Sign → Nat}
    (accounts : state.Accounts workers corpus plan space)
    (finished : state.plain.isFinished = true) (some : 0 < workers)
    (running : ¬ state.plain.Stopped) (sign : Sign) : state.shared.returnedOn sign = corpus sign := by
  have each := List.all_eq_true.1 finished
  have opened : state.files = [] := by
    refine accounts.sound.toInOrder.files_eq_nil each ?_ running
    rw [List.length_map, accounts.crew]
    exact some
  have none : (state.workers.map fun own =>
      own.worker.owes space state.shared.counting.pool sign).sum = 0 := by
    apply List.sum_eq_zero_iff_forall_eq_nat.2
    intro owes listed
    rcases List.mem_map.1 listed with ⟨own, member, rfl⟩
    have worker : own.worker ∈ state.workers.map (·.worker) := List.mem_map_of_mem member
    exact (accounts.sound.workers _ worker).owes_eq_zero (each _ worker) _ sign
  have even := accounts.even running sign
  rw [ledger, opened, none] at even
  exact even

end ThreadedPass

namespace Pass

variable {settings : Settings} {space : Space} {files : List OpenedFile}

/-- A pass with threads starts with all of its corpus in its files. -/
theorem accounts_threaded (valid : settings.check = .ok ())
    (ascending : files.Pairwise fun a b => a.id < b.id) :
    (opening settings space files).threaded.Accounts settings.workers
      (fun sign => files.countP (Worker.fileHas (settings.plan space) space sign))
      (settings.plan space) space := by
  rcases check_eq_ok valid with ⟨-, -, -, -, grouped, -, -, -⟩
  have workers : (opening settings space files).threaded.workers =
      List.replicate settings.workers ⟨.fresh, ⟨[], .idle⟩, none⟩ := List.map_replicate
  refine ⟨⟨?inOrder, ?pooled, rfl, ?threads⟩, ?crew, ?even⟩
  case inOrder =>
    rw [workers, List.map_replicate]
    exact .fresh settings.workers ascending
  case pooled =>
    have zero : ∀ mark, (Tally.zero space).count mark = 0 := fun _ => Std.TreeMap.getD_emptyc
    have clean := Crew.sound_clean grouped zero (settings.workers + settings.groupSize)
      settings.workers
    rw [ThreadedPass.crew, workers, List.map_replicate]
    rw [Crew.opening, ← List.map_replicate] at clean
    exact clean
  case threads =>
    intro own member
    rw [workers] at member
    obtain rfl := List.eq_of_mem_replicate member
    exact ⟨rfl, .free⟩
  case crew => rw [workers, List.length_replicate]
  case even =>
    intro _ sign
    rw [ThreadedPass.ledger, workers, List.map_replicate, List.sum_replicate_nat]
    exact (congrArg (· + _) (Nat.zero_add _)).trans (Nat.zero_add _)

section

variable [Memory]

/-- A pass with threads whose steps at the pool are taken in the order of a schedule. -/
def interrupted (settings : Settings) (space : Space) (files : List OpenedFile)
    (schedule : List Turn) : ThreadedPass :=
  (opening settings space files).threaded.run (settings.plan space) schedule

variable (valid : settings.check = .ok ()) (made : space.Made)
  (ascending : files.Pairwise fun a b => a.id < b.id) {schedule : List Turn}

include valid made ascending

/-- However the workers of a pass interrupt each other, they are safe at the pool. -/
theorem interrupted_safe (schedule : List Turn) :
    (interrupted settings space files schedule).crew.Safe :=
  (ThreadedPass.accounts_run made (fits_plan valid space) schedule
    (accounts_threaded valid ascending)).sound.pooled.safe

/-- At the end of a pass in which no reader stops, as many mark sets were given back with a sign as
there are files that show it, however the workers interrupted each other. Closing the pool leaves the
number of files that show a slot in its counter, in the arithmetic of its bits. -/
theorem interrupted_closes
    (finished : (interrupted settings space files schedule).plain.isFinished = true)
    (running : ¬ (interrupted settings space files schedule).plain.Stopped) :
    (∀ sign, (interrupted settings space files schedule).shared.returnedOn sign =
      files.countP (Worker.fileHas (settings.plan space) space sign)) ∧
    ∃ closed flushed, (interrupted settings space files schedule).shared.counting.close =
        (closed, .ok flushed) ∧
      ∀ mark, closed.tally.count mark =
        (files.countP (Worker.fileHas (settings.plan space) space (.slot mark))).toUInt32 := by
  rcases check_eq_ok valid with ⟨-, -, -, some, -, -, -, -⟩
  have accounts := ThreadedPass.accounts_run made (fits_plan valid space) schedule
    (@accounts_threaded settings space files valid ascending)
  have returned := accounts.returnedOn_eq finished some running
  obtain ⟨closed, flushed, closes, counts⟩ :=
    accounts.sound.pooled.settles (accounts.sound.finished finished)
  refine ⟨returned, closed, flushed, closes, ?_⟩
  intro mark
  rw [← returned (.slot mark)]
  exact (counts mark).1

/-- So it makes no difference to the counters whether the workers of a pass are interrupted. -/
theorem interrupted_agrees
    (finished : (interrupted settings space files schedule).plain.isFinished = true)
    (running : ¬ (interrupted settings space files schedule).plain.Stopped) {other : List Turn}
    {tally : Tally} {totals : PassTotals}
    (counted : count settings space files other = .ok (tally, totals)) :
    ∃ closed flushed, (interrupted settings space files schedule).shared.counting.close =
        (closed, .ok flushed) ∧ ∀ mark, closed.tally.count mark = tally.count mark := by
  obtain ⟨-, closed, flushed, closes, counts⟩ :=
    interrupted_closes valid made ascending finished running
  rcases closed_of_count valid made ascending counted with ⟨quiet, last, number, ends, rfl, -⟩
  obtain ⟨again, count, same, -, sums⟩ := close_closing valid made ascending quiet
  cases ends.symm.trans same
  refine ⟨closed, flushed, closes, ?_⟩
  intro mark
  apply UInt32.toNat_inj.1
  rw [counts, sums]
  rfl

end

end Pass

end GramCensus
