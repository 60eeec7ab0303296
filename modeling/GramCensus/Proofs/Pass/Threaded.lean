import GramCensus.Proofs.Pool.Effects
import GramCensus.Proofs.Pass.Ledger
import GramCensus.Pass.Threaded

/-!
# What a turn with a thread does

While the thread of a counter is on an errand, the worker knows where the thread is
(`ThreadedWorker.Busy`). To the worker and to the mark set that it has leased, a turn does one of a
few things (`Worker.ThreadStep`), and it leaves the mark sets of other workers alone
(`ThreadedWorker.turned`). What a worker owes changes only when a mark set is given back, by what the
set has on it (`Worker.owed_of_threadStep`).
-/

namespace GramCensus

namespace SharedPool

variable {shared after : SharedPool} {i : Nat}

/-- The number of mark sets that were given back with a sign. -/
def returnedOn (shared : SharedPool) (sign : Sign) : Nat :=
  shared.returned.countP fun (_, marks) => sign.on marks

theorem returnedOn_congr (same : after.returned = shared.returned) (sign : Sign) :
    after.returnedOn sign = shared.returnedOn sign := by
  rw [returnedOn, same, returnedOn]

theorem returnedOn_append {marks : MarkSet} (added : after.returned = shared.returned ++ [(i, marks)])
    (sign : Sign) : after.returnedOn sign = shared.returnedOn sign + (sign.on marks).toNat := by
  rw [returnedOn, added, List.countP_append, returnedOn]
  cases on : sign.on marks <;> simp [on]

theorem leased?_congr (same : after.slot? i = shared.slot? i) :
    after.counting.pool.leased? i = shared.counting.pool.leased? i := by
  rw [Pool.leased?, show after.counting.pool.slots[i]? = _ from same]
  rfl

end SharedPool

namespace Worker

variable {plan : PassPlan} {space : Space} {worker : Worker} {shared : SharedPool}

/-! ## What a turn of the counter does -/

/-- There is nothing more to mark in a mark set: the next chunk is of another file, or there will be
none. -/
structure IsDoneWith (worker : Worker) (lease : Lease) : Prop where
  other : ∀ chunk rest, worker.queue = chunk :: rest → lease.fileId ≠ chunk.fileId
  drained : worker.queue = [] → worker.reader.isFinished = true

/-- What a turn of the counter does to the worker and to the mark set that it has leased. -/
inductive ThreadStep (space : Space) (shared : SharedPool) (worker : Worker) :
    SharedPool × Worker → Prop where
  /-- Nothing, whatever the thread does at the pool. -/
  | waits {after : SharedPool} :
      after.returned = shared.returned →
        (∀ held, worker.lease? = some held →
          after.counting.pool.leased? held.slot = shared.counting.pool.leased? held.slot) →
        ThreadStep space shared worker (after, worker)
  /-- A clean mark set is leased for the file of the next chunk. -/
  | leases {after : SharedPool} {chunk : QueuedChunk} {rest : List QueuedChunk} {slot : Nat}
      {marks : MarkSet} :
      worker.counter = .counting none → worker.queue = chunk :: rest →
        after.returned = shared.returned → after.counting.pool.leased? slot = some marks →
        (∀ sign : Sign, sign.on marks = false) →
        ThreadStep space shared worker
          (after, { worker with counter := .counting (some ⟨slot, chunk.fileId⟩) })
  /-- What leaves the next chunk is marked. -/
  | marks {after : SharedPool} {lease : Lease} {chunk : QueuedChunk} {rest : List QueuedChunk}
      {marks changed : MarkSet} {left : Bytes} {marked : Nat} :
      worker.counter = .counting (some lease) → worker.queue = chunk :: rest →
        lease.fileId = chunk.fileId → after.returned = shared.returned →
        shared.counting.pool.leased? lease.slot = some marks →
        after.counting.pool.leased? lease.slot = some changed →
        (∀ sign : Sign, (sign.on changed || sign.shownBy space left) =
          (sign.on marks || sign.shownBy space chunk.bytes)) →
        ThreadStep space shared worker
          (after, { worker with queue := { chunk with bytes := left } :: rest, marked })
  /-- What is left of the next chunk shows nothing. -/
  | passes {lease : Lease} {chunk : QueuedChunk} {rest : List QueuedChunk} :
      worker.counter = .counting (some lease) → worker.queue = chunk :: rest →
        lease.fileId = chunk.fileId → (∀ sign : Sign, sign.shownBy space chunk.bytes = false) →
        ThreadStep space shared worker (shared, { worker with queue := rest })
  /-- The mark set is given back. -/
  | returns {after : SharedPool} {lease : Lease} {marks : MarkSet} :
      worker.counter = .counting (some lease) → worker.IsDoneWith lease →
        shared.counting.pool.leased? lease.slot = some marks →
        after.returned = shared.returned ++ [(lease.slot, marks)] →
        ThreadStep space shared worker (after, { worker with counter := .counting none })
  /-- The counter ends, as there are no more chunks. -/
  | ends {after : SharedPool} :
      worker.counter = .counting none → worker.queue = [] → worker.reader.isFinished = true →
        after.returned = shared.returned →
        ThreadStep space shared worker (after, { worker with counter := .done })

theorem reader_of_threadStep {after : SharedPool × Worker}
    (step : ThreadStep space shared worker after) : after.2.reader = worker.reader := by
  cases step <;> rfl

theorem sound_of_threadStep (sound : worker.Sound plan) {after : SharedPool × Worker}
    (step : ThreadStep space shared worker after) : after.2.Sound plan := by
  cases step with
  | waits => exact sound
  | leases =>
    exact ⟨sound.follows, sound.carries, (fun failure failed => by cases failed),
      fun done => by cases done⟩
  | marks counts => exact ⟨sound.follows, sound.carries, sound.counts,
      fun done => by cases counts.symm.trans done⟩
  | passes counts => exact ⟨sound.follows, sound.carries, sound.counts,
      fun done => by cases counts.symm.trans done⟩
  | returns =>
    exact ⟨sound.follows, sound.carries, (fun failure failed => by cases failed),
      fun done => by cases done⟩
  | ends counts empty finished =>
    exact ⟨sound.follows, sound.carries, (fun failure failed => by cases failed),
      fun done => ⟨empty, finished⟩⟩

theorem fileIds_of_threadStep {after : SharedPool × Worker}
    (step : ThreadStep space shared worker after) :
    ∀ id ∈ after.2.fileIds, id ∈ worker.fileIds := by
  cases step with
  | waits => exact fun id member => member
  | leases counts queued => simp [fileIds, counterIds, lease?, counts, queued]
  | marks counts queued => simp [fileIds, counterIds, lease?, counts, queued]
  | passes counts queued =>
    intro id
    simp only [fileIds, counterIds, lease?, counts, queued, List.map_cons, List.mem_append,
      List.mem_cons]
    tauto
  | returns counts =>
    intro id
    simp only [fileIds, counterIds, lease?, counts, List.mem_append]
    tauto
  | ends counts => simp [fileIds, counterIds, lease?, counts]

/-- What a worker owes is on record once the mark set is given back. -/
theorem owed_of_threadStep {after : SharedPool × Worker}
    (step : ThreadStep space shared worker after) (sign : Sign) :
    after.1.returnedOn sign + after.2.owes space after.1.counting.pool sign =
      shared.returnedOn sign + worker.owes space shared.counting.pool sign := by
  cases step with
  | waits returned leased => rw [SharedPool.returnedOn_congr returned, owes_congr leased]
  | @leases after chunk rest slot marks counts queued returned leased clean =>
    -- A clean set of the next chunk's file adds a piece that is merged with the chunk's.
    have none : leaseHas after.counting.pool (some ⟨slot, chunk.fileId⟩) sign = false := by
      rw [leaseHas, Option.bind_some, leased, Option.any_some, clean]
    rw [SharedPool.returnedOn_congr returned]
    simp only [owes, pieces, counterPieces, lease?, counts, queued, leasePieces, none, queuePieces,
      List.map_cons, List.nil_append, List.cons_append, owed_merge, Bool.false_or]
  | @marks after lease chunk rest marks changed left marked counts queued same returned leased
      changes shows =>
    have before : leaseHas shared.counting.pool (some lease) sign = sign.on marks := by
      rw [leaseHas, Option.bind_some, leased, Option.any_some]
    have behind : leaseHas after.counting.pool (some lease) sign = sign.on changed := by
      rw [leaseHas, Option.bind_some, changes, Option.any_some]
    rw [SharedPool.returnedOn_congr returned]
    simp only [owes, pieces, counterPieces, lease?, counts, queued, leasePieces, before, behind,
      queuePieces, List.map_cons, List.nil_append, List.cons_append, ← same, owed_merge, shows]
  | @passes lease chunk rest counts queued same none =>
    simp only [owes, pieces, counterPieces, lease?, counts, queued, leasePieces, queuePieces, none,
      List.map_cons, List.nil_append, List.cons_append, ← same, owed_merge, Bool.or_false]
  | @returns after lease marks counts done leased returned =>
    have held : leaseHas shared.counting.pool (some lease) sign = sign.on marks := by
      rw [leaseHas, Option.bind_some, leased, Option.any_some]
    -- The first piece is of another file than all that follow, so it leaves with what it owes.
    have left : worker.owes space shared.counting.pool sign = (sign.on marks).toNat +
        Worker.owes space after.counting.pool sign { worker with counter := .counting none } := by
      cases queued : worker.queue with
      | nil =>
        simp only [owes, pieces, counterPieces, lease?, counts, queued, leasePieces, queuePieces,
          readerPieces_of_isFinished (done.drained queued), held, List.map_nil, List.append_nil]
        rfl
      | cons chunk rest =>
        simp only [owes, pieces, counterPieces, lease?, counts, queued, leasePieces, queuePieces,
          held, List.map_cons, List.nil_append, List.cons_append,
          owed_cons_of_ne (done.other chunk rest queued)]
    rw [SharedPool.returnedOn_append returned, left, Nat.add_assoc]
  | ends counts empty finished returned =>
    rw [SharedPool.returnedOn_congr returned]
    simp only [owes, pieces, counterPieces, lease?, counts]
    rfl

/-! ## Where the thread is -/

/-- Where the thread of a counter is, with the errand it is on. -/
inductive Busy (worker : Worker) : Option Errand → Task → Prop where
  | free : Busy worker none .idle
  | leases {task : Task} :
      worker.counter = .counting none → worker.queue ≠ [] →
        (task = .idle ∨ ∃ next, task = .leasing next) → Busy worker (some .lease) task
  | makesWay {task : Task} :
      worker.counter = .counting none → worker.queue ≠ [] → task.isFlush = true →
        Busy worker (some .makeWay) task
  | givesBack {lease : Lease} {task : Task} :
      worker.counter = .counting (some lease) → worker.IsDoneWith lease →
        (task = .idle ∨ ∃ marked, task = .givingBack lease.slot marked) →
        Busy worker (some (.giveBack lease.slot)) task
  | flushes {task : Task} :
      worker.counter = .counting none → (worker.queue = [] → worker.reader.isFinished = true) →
        task.isFlush = true → Busy worker (some .flush) task

theorem Busy.idle {task : Task} (busy : worker.Busy none task) : task = .idle := by
  cases busy
  rfl

end Worker

namespace ThreadedWorker

variable {plan : PassPlan} {space : Space} {crew : Crew} {t : Nat} {own : ThreadedWorker}

/-- What holds of a worker and its thread between two turns. -/
structure Sound (own : ThreadedWorker) : Prop where
  leases_eq : own.thread.leases = (own.worker.lease?.map (·.slot)).toList
  busy : own.worker.Busy own.errand own.thread.task

/-- What a turn of the counter comes to. -/
structure Turned (space : Space) (shared : SharedPool) (own : ThreadedWorker)
    (outcome : SharedPool × ThreadedWorker) : Prop where
  step : own.worker.ThreadStep space shared (outcome.1, outcome.2.worker)
  advances : own.thread.Advances shared (outcome.1, outcome.2.thread)
  sound : outcome.2.Sound
  space_eq : outcome.1.counting.tally.space = shared.counting.tally.space
  slot?_eq : ∀ i, shared.phase? i = some .leased → i ∉ own.thread.leases →
    outcome.1.slot? i = shared.slot? i

/-- The mark set of a worker's lease is leased. -/
theorem Sound.leased (sound : own.Sound) (pooled : crew.Sound)
    (found : crew.threads[t]? = some own.thread) {held : Lease}
    (lease : own.worker.lease? = some held) :
    ∃ marks, crew.shared.slot? held.slot = some ⟨.leased, marks⟩ := by
  refine SharedPool.phase?_eq_some_iff.1 ((pooled.in_phase (List.mem_of_getElem? found)).1 _ ?_)
  rw [sound.leases_eq, lease]
  exact List.mem_singleton_self _

/-- A step of the thread that begins and ends no lease is nothing to the worker. -/
theorem Sound.waits (sound : own.Sound) (pooled : crew.Sound)
    (found : crew.threads[t]? = some own.thread) {after : SharedPool} {thread : Thread}
    {errand : Option Errand} (advances : own.thread.Advances crew.shared (after, thread))
    (spares : own.thread.Spares crew.shared (after, thread))
    (busy : own.worker.Busy errand thread.task) :
    Turned space crew.shared own (after, ⟨own.worker, thread, errand⟩) where
  step := by
    refine .waits spares.returned_eq ?_
    intro held lease
    rcases sound.leased pooled found lease with ⟨marks, leased⟩
    exact SharedPool.leased?_congr
      (spares.slot?_eq _ (SharedPool.phase?_eq_some_iff.2 ⟨marks, leased⟩))
  advances := advances
  sound := ⟨spares.leases_eq.trans sound.leases_eq, busy⟩
  space_eq := spares.space_eq
  slot?_eq := fun i leased _ => spares.slot?_eq i leased

/-! ## Marking -/

theorem turned_markWindow (sound : own.Sound) (pooled : crew.Sound)
    (found : crew.threads[t]? = some own.thread) (made : space.Made)
    (space_eq : crew.shared.counting.tally.space = space) (free : own.errand = none)
    (idle : own.thread.task = .idle) {lease : Lease} {chunk : QueuedChunk}
    {rest : List QueuedChunk} (counts : own.worker.counter = .counting (some lease))
    (queued : own.worker.queue = chunk :: rest) (same : lease.fileId = chunk.fileId) :
    Turned space crew.shared own (own.markWindow crew.shared lease chunk rest) := by
  have lease_eq : own.worker.lease? = some lease := by rw [Worker.lease?, counts]
  rcases sound.leased pooled found lease_eq with ⟨marks, leased⟩
  have member : lease.slot ∈ own.thread.leases := by
    rw [sound.leases_eq, lease_eq]
    exact List.mem_singleton_self _
  have busy : ∀ worker : Worker, worker.Busy own.errand own.thread.task := by
    intro worker
    rw [free, idle]
    exact .free
  rw [markWindow, space_eq]
  dsimp only
  split
  case isTrue short =>
    rw [List.length_take] at short
    exact ⟨.passes counts queued same fun sign => Sign.shownBy_eq_false (by omega), .inl rfl,
      ⟨sound.leases_eq, busy _⟩, rfl, fun _ _ _ => rfl⟩
  case isFalse whole =>
    rw [List.length_take] at whole
    have long : space.gramLength ≤ chunk.bytes.length := by omega
    have positive := space.gramLength_pos
    obtain ⟨byte, tail, bytes_eq⟩ : ∃ byte tail, chunk.bytes = byte :: tail :=
      List.exists_cons_of_length_pos (by omega)
    have width : (chunk.bytes.take space.gramLength).length = space.gramLength := by
      rw [List.length_take]
      omega
    have held : crew.shared.counting.pool.leased? lease.slot = some marks :=
      Pool.leased?_eq_some_iff.2 leased
    split
    case h_1 failure failed =>
      rcases Space.exists_slot?_eq_ok width with ⟨slot, looked⟩
      cases looked.symm.trans failed
    case h_2 looked =>
      refine ⟨.marks counts queued same rfl held held ?_, .inl rfl, ⟨sound.leases_eq, busy _⟩, rfl,
        fun _ _ _ => rfl⟩
      intro sign
      rw [bytes_eq] at looked long ⊢
      rw [Sign.shownBy_of_none long looked, List.tail_cons]
    case h_3 bit looked =>
      have inUse := pooled.inUse _ _ leased
      -- Every slot of the space has its bit in a mark set of the pool.
      have inside : bit / 64 < marks.size := by
        have small := ((made.slot?_eq_some_iff width).1 looked).1
        rw [inUse.size_eq, Tally.words, space_eq]
        omega
      obtain ⟨changed, setting, -⟩ := MarkSet.set_eq_ok inside
      have stepped : own.thread.step crew.shared (.set lease.slot bit) =
          (crew.shared.changeSlot lease.slot fun slot =>
            { slot with marks := (slot.marks.set bit).toOption.getD slot.marks }, own.thread) := by
        simp only [Thread.step, idle, Thread.begin, if_pos member]
      have advances : own.thread.Advances crew.shared _ := .inr ⟨.set lease.slot bit, rfl⟩
      rw [stepped] at advances ⊢
      have placed := SharedPool.slot?_changeSlot_self leased fun slot =>
        { slot with marks := (slot.marks.set bit).toOption.getD slot.marks }
      simp only [setting, Except.toOption, Option.getD_some] at placed
      refine ⟨.marks counts queued same rfl held (Pool.leased?_eq_some_iff.2 placed) ?_, advances,
        ⟨sound.leases_eq, busy _⟩, rfl, ?_⟩
      · intro sign
        rw [bytes_eq] at looked long ⊢
        rw [Sign.on_set setting, Sign.shownBy_of_some long looked, List.tail_cons, Bool.or_assoc]
      · intro i _ other
        refine SharedPool.slot?_changeSlot_of_ne ?_ _
        rintro rfl
        exact other member

/-- A turn of a counter whose thread is on no errand. -/
theorem turned_proceed (sound : own.Sound) (pooled : crew.Sound)
    (found : crew.threads[t]? = some own.thread) (made : space.Made)
    (space_eq : crew.shared.counting.tally.space = space) (free : own.errand = none)
    (idle : own.thread.task = .idle) :
    Turned space crew.shared own (own.proceed crew.shared) := by
  -- All that is done but marking is to send the thread on an errand.
  have sends : ∀ errand, own.worker.Busy errand .idle →
      Turned space crew.shared own (crew.shared, { own with errand }) := by
    intro errand busy
    exact sound.waits pooled found (.inl rfl) (Thread.spares_turnTo _ _ own.thread.task) (idle ▸ busy)
  have stays : Turned space crew.shared own (crew.shared, own) := by
    have same := sends none .free
    rwa [← free] at same
  rw [proceed]
  split
  case h_1 lease counts =>
    split
    case h_1 chunk rest queued =>
      have some : own.worker.queue ≠ [] := by
        rw [queued]
        exact List.cons_ne_nil _ _
      split
      case h_1 => exact sends _ (.leases counts some (.inl rfl))
      case h_2 held =>
        split
        case isTrue same =>
          exact turned_markWindow sound pooled found made space_eq free idle counts queued same
        case isFalse other =>
          refine sends _ (.givesBack counts ⟨?_, fun empty => absurd empty some⟩ (.inl rfl))
          intro next later again
          cases queued.symm.trans again
          exact other
    case h_2 empty =>
      split
      case isTrue finished =>
        split
        case h_1 => exact sends _ (.flushes counts (fun _ => finished) rfl)
        case h_2 held =>
          refine sends _ (.givesBack counts ⟨?_, fun _ => finished⟩ (.inl rfl))
          intro next later again
          cases empty.symm.trans again
      case isFalse => exact stays
  case h_2 => exact stays

/-! ## Errands -/

theorem conclude_lease {slot : Nat} {others : List Nat} {chunk : QueuedChunk}
    {rest : List QueuedChunk} (leases : own.thread.leases = slot :: others)
    (queued : own.worker.queue = chunk :: rest) :
    own.conclude .lease = own.countAs (.counting (some ⟨slot, chunk.fileId⟩)) none := by
  rw [conclude, leases, queued]

/-- A step of a thread that leases for its worker. -/
theorem turned_lease (sound : own.Sound) (pooled : crew.Sound)
    (found : crew.threads[t]? = some own.thread) (errand : own.errand = some .lease) :
    Turned space crew.shared own (own.countTurn plan crew.shared) := by
  rcases own with ⟨worker, ⟨leases, task⟩, _⟩
  obtain rfl := errand
  cases sound.busy with
  | leases counts queued place =>
  have none : leases = [] := by
    have held := sound.leases_eq
    rw [Worker.lease?, counts] at held
    exact held
  subst none
  rcases place with rfl | ⟨next, rfl⟩
  · exact sound.waits pooled found (.inr ⟨.lease, rfl⟩) (Thread.spares_turnTo _ _ (.leasing 0))
      (.leases counts queued (.inr ⟨0, rfl⟩))
  · rw [countTurn]
    dsimp only
    rcases pooled.seeking [] next (Errand.lease.request plan) with
      ⟨task, step, rfl | ⟨later, rfl⟩⟩ | ⟨i, marks, free, clean, step⟩
    · rw [step]
      exact sound.waits pooled found (.inr ⟨_, step.symm⟩) (Thread.spares_turnTo _ _ .idle)
        (.makesWay counts queued rfl)
    · rw [step]
      exact sound.waits pooled found (.inr ⟨_, step.symm⟩)
        (Thread.spares_turnTo _ _ (.leasing later)) (.leases counts queued (.inr ⟨later, rfl⟩))
    · rw [step]
      obtain ⟨chunk, rest, queue_eq⟩ := List.exists_cons_of_ne_nil queued
      have placed := SharedPool.slot?_changeSlot_self free fun slot => { slot with phase := .leased }
      dsimp only
      rw [if_pos rfl, @conclude_lease ⟨worker, ⟨[i], .idle⟩, _⟩ i [] chunk rest rfl queue_eq]
      refine ⟨.leases counts queue_eq rfl (Pool.leased?_eq_some_iff.2 placed) clean,
        .inr ⟨_, step.symm⟩, ⟨rfl, .free⟩, rfl, ?_⟩
      intro j leased _
      refine SharedPool.slot?_changeSlot_of_ne ?_ _
      rintro rfl
      cases (SharedPool.phase?_eq_some_iff.2 ⟨marks, free⟩).symm.trans leased

/-- A step of a thread that makes way for its worker. -/
theorem turned_makeWay (sound : own.Sound) (pooled : crew.Sound)
    (found : crew.threads[t]? = some own.thread) (errand : own.errand = some .makeWay) :
    Turned space crew.shared own (own.countTurn plan crew.shared) := by
  rcases own with ⟨worker, thread, _⟩
  obtain rfl := errand
  cases sound.busy with
  | makesWay counts queued isFlush =>
  rcases pooled.flushes found isFlush 1 with ⟨spares, goesOn⟩
  rw [countTurn]
  dsimp only [Errand.request]
  have advances : thread.Advances crew.shared _ := .inr ⟨.flush 1, rfl⟩
  generalize Thread.step crew.shared thread (.flush 1) = outcome at spares goesOn advances
  split
  case isTrue idle =>
    exact sound.waits pooled found advances spares (.leases counts queued (.inl idle))
  case isFalse => exact sound.waits pooled found advances spares (.makesWay counts queued goesOn)

/-- A step of a thread that flushes behind a return. The worker ends if there is nothing more to
count. -/
theorem turned_flush (sound : own.Sound) (pooled : crew.Sound)
    (found : crew.threads[t]? = some own.thread) (errand : own.errand = some .flush) :
    Turned space crew.shared own (own.countTurn plan crew.shared) := by
  rcases own with ⟨worker, thread, _⟩
  obtain rfl := errand
  cases sound.busy with
  | flushes counts drained isFlush =>
  rcases pooled.flushes found isFlush plan.groupSize with ⟨spares, goesOn⟩
  have none : worker.lease? = none := by rw [Worker.lease?, counts]
  rw [countTurn]
  dsimp only [Errand.request]
  have advances : thread.Advances crew.shared _ := .inr ⟨.flush plan.groupSize, rfl⟩
  generalize Thread.step crew.shared thread (.flush plan.groupSize) = outcome
    at spares goesOn advances
  split
  case isTrue idle =>
    have free : ∀ next : Worker, next.Busy Option.none outcome.2.task := fun next => idle ▸ .free
    rw [conclude]
    split
    case isTrue empty =>
      have empty := List.isEmpty_iff.1 empty
      refine ⟨.ends counts empty (drained empty) spares.returned_eq, advances, ⟨?_, free _⟩,
        spares.space_eq, fun i leased _ => spares.slot?_eq i leased⟩
      have held := sound.leases_eq
      rw [none] at held
      exact spares.leases_eq.trans held
    case isFalse => exact sound.waits pooled found advances spares (free _)
  case isFalse => exact sound.waits pooled found advances spares (.flushes counts drained goesOn)

/-- A step of a thread that gives the mark set of its worker back. -/
theorem turned_giveBack (sound : own.Sound) (pooled : crew.Sound)
    (found : crew.threads[t]? = some own.thread) {slot : Nat}
    (errand : own.errand = some (.giveBack slot)) :
    Turned space crew.shared own (own.countTurn plan crew.shared) := by
  rcases own with ⟨worker, ⟨leases, task⟩, _⟩
  obtain rfl := errand
  cases sound.busy with
  | @givesBack lease _ counts done place =>
  have lease_eq : worker.lease? = some lease := by rw [Worker.lease?, counts]
  obtain rfl : leases = [lease.slot] := by
    have held := sound.leases_eq
    rw [lease_eq] at held
    exact held
  rcases sound.leased pooled found lease_eq with ⟨marks, leased⟩
  rcases place with rfl | ⟨marked, rfl⟩
  · have step : Thread.step crew.shared ⟨[lease.slot], .idle⟩ (.giveBack lease.slot) =
        (crew.shared, ⟨[lease.slot], .givingBack lease.slot marks.hasMarks⟩) := by
      simp only [Thread.step, Thread.begin, leased, List.mem_singleton, if_true, Thread.turnTo]
    rw [countTurn]
    dsimp only [Errand.request]
    rw [step]
    exact sound.waits pooled found (.inr ⟨_, step.symm⟩)
      (Thread.spares_turnTo _ _ (.givingBack lease.slot marks.hasMarks))
      (.givesBack counts done (.inr ⟨_, rfl⟩))
  · obtain ⟨again, after, held, -, step, returned, space_eq, others⟩ :=
      pooled.returning found (Errand.request plan (.giveBack lease.slot))
    rw [countTurn]
    dsimp only
    rw [List.erase_cons_head] at step
    rw [step]
    refine ⟨.returns counts done (Pool.leased?_eq_some_iff.2 held) returned, .inr ⟨_, step.symm⟩,
      ⟨rfl, .flushes rfl done.drained rfl⟩, space_eq, ?_⟩
    intro i _ other
    refine others i ?_
    rintro rfl
    exact other (List.mem_singleton_self _)

/-- Every turn of a counter does one of these things. -/
theorem turned (sound : own.Sound) (pooled : crew.Sound)
    (found : crew.threads[t]? = some own.thread) (made : space.Made)
    (space_eq : crew.shared.counting.tally.space = space) :
    Turned space crew.shared own (own.countTurn plan crew.shared) := by
  cases errand : own.errand with
  | none =>
    have busy := sound.busy
    rw [errand] at busy
    rw [countTurn, errand]
    exact turned_proceed sound pooled found made space_eq errand busy.idle
  | some goal =>
    cases goal with
    | lease => exact turned_lease sound pooled found errand
    | makeWay => exact turned_makeWay sound pooled found errand
    | giveBack slot => exact turned_giveBack sound pooled found errand
    | flush => exact turned_flush sound pooled found errand

end ThreadedWorker

end GramCensus
