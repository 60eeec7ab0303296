import Mathlib.Logic.Relation
import GramCensus.Proofs.Pool.Alone
import GramCensus.Proofs.Pass.Interrupted

/-!
# Turns without interruption

A turn of a pass is what a worker with a thread comes to if nobody else has a turn before its thread
is back from the pool (`ThreadedWorker.comes_countTurn`). So every pass is one with threads under some
schedule of single steps (`Pass.exists_interrupted_eq_closing`).
-/

namespace GramCensus

namespace ThreadedWorker

variable {plan : PassPlan} {space : Space} {shared : SharedPool} {worker : Worker}
  {errand : Errand} {thread : Thread}

/-- A worker whose thread is on no errand. -/
def resting (worker : Worker) : ThreadedWorker :=
  ⟨worker, ⟨(worker.lease?.map (·.slot)).toList, .idle⟩, none⟩

/-- What a worker comes to by turns of its counter that nobody interrupts. -/
def Comes (plan : PassPlan) : SharedPool × ThreadedWorker → SharedPool × ThreadedWorker → Prop :=
  Relation.ReflTransGen fun before after => after = before.2.countTurn plan before.1

/-! ## Errands -/

/-- A thread that is busy does not listen to requests. -/
theorem step_of_busy (busy : thread.task ≠ .idle) (first second : PoolRequest) :
    thread.step shared first = thread.step shared second := by
  rcases thread with ⟨leases, task⟩
  cases task with
  | idle => exact absurd rfl busy
  | lettingGo group => cases group <;> rfl
  | adding group words => cases words <;> rfl
  | clearing cleared left => cases left <;> rfl
  | freeing size left => cases left <;> rfl
  | _ => rfl

/-- A thread that is sent on an errand and left alone comes back from it. -/
theorem comes_of_alone {state final : SharedPool × Thread} (alone : Alone state final)
    (back : final.2.task = .idle) (begins : thread.step shared (errand.request plan) = state) :
    Comes plan (shared, ⟨worker, thread, some errand⟩)
      (final.1, conclude ⟨worker, final.2, some errand⟩ errand) := by
  -- The first step listens to the errand, and then the thread is busy until it is back.
  induction alone generalizing shared thread with
  | refl =>
    refine .single ?_
    rw [countTurn]
    dsimp only
    rw [begins, if_pos back]
  | @step state final busy _ ih =>
    refine .head ?_ (ih back (step_of_busy busy _ .lease))
    rw [countTurn]
    dsimp only
    rw [begins, if_neg busy]

theorem comes_leased {chunk : QueuedChunk} {rest : List QueuedChunk} {i : Nat} {pool : Pool}
    (queued : worker.queue = chunk :: rest)
    (leased : shared.counting.pool.lease = some (i, pool)) :
    Comes plan (shared, ⟨worker, ⟨[], .idle⟩, some .lease⟩)
      (shared.withPool pool,
        resting { worker with counter := .counting (some ⟨i, chunk.fileId⟩) }) := by
  have comes := @comes_of_alone plan shared worker .lease ⟨[], .idle⟩ _ _
    (Thread.lease_alone_some leased) rfl rfl
  rw [conclude_lease rfl queued] at comes
  exact comes

/-- Where no mark set is free, the thread makes way and tries again. -/
theorem comes_madeWay (shaped : shared.counting.Shaped)
    (none : shared.counting.pool.lease = none) :
    ∃ after, Comes plan (shared, ⟨worker, ⟨[], .idle⟩, some .lease⟩)
        (after, ⟨worker, ⟨[], .idle⟩, some .lease⟩) ∧
      after.counting = (shared.counting.flushGroup 1).1 := by
  have fails := @comes_of_alone plan shared worker .lease ⟨[], .idle⟩ _ _
    (Thread.lease_alone_none none) rfl rfl
  rcases Thread.flush_alone shaped 1 [] with ⟨after, alone, counting, -⟩
  have flushes := @comes_of_alone plan shared worker .makeWay ⟨[], .idle⟩ _ _ alone rfl rfl
  exact ⟨after, fails.trans flushes, counting⟩

/-- A worker leases as the pool and its tally do at once. -/
theorem comes_lease {chunk : QueuedChunk} {rest : List QueuedChunk} {i : Nat} {final : Counting}
    (shaped : shared.counting.Shaped) (queued : worker.queue = chunk :: rest)
    (leased : shared.counting.lease = (final, .ok (some i))) :
    ∃ after, Comes plan (shared, ⟨worker, ⟨[], .idle⟩, some .lease⟩)
        (after, resting { worker with counter := .counting (some ⟨i, chunk.fileId⟩) }) ∧
      after.counting = final := by
  rw [Counting.lease] at leased
  split at leased
  case h_1 slot pool first =>
    cases leased
    exact ⟨_, comes_leased queued first, rfl⟩
  case h_2 none =>
    rcases @comes_madeWay plan shared worker shaped none with ⟨later, comes, counting⟩
    split at leased
    case h_1 => cases leased
    case h_2 drained _ flushing =>
      rw [flushing] at counting
      obtain rfl := counting
      split at leased
      case h_1 slot pool second =>
        cases leased
        exact ⟨_, comes.trans (comes_leased queued second), rfl⟩
      case h_2 => cases leased

/-- Behind a return the thread flushes, and the worker ends if it has nothing more to count. -/
theorem comes_flush (shaped : shared.counting.Shaped) (counts : worker.counter = .counting none)
    {next : Counter} (next_eq : next = if worker.queue.isEmpty then .done else .counting none) :
    ∃ after, Comes plan (shared, ⟨worker, ⟨[], .idle⟩, some .flush⟩)
        (after, resting { worker with counter := next }) ∧
      after.counting = (shared.counting.flushGroup plan.groupSize).1 := by
  rcases Thread.flush_alone shaped plan.groupSize [] with ⟨after, alone, counting, -⟩
  have comes := @comes_of_alone plan shared worker .flush ⟨[], .idle⟩ _ _ alone rfl rfl
  refine ⟨after, ?_, counting⟩
  rw [conclude] at comes
  split at comes
  case isTrue empty =>
    rw [next_eq, if_pos empty]
    exact comes
  case isFalse some =>
    have same : { worker with counter := .counting none } = worker := by rw [← counts]
    rw [next_eq, if_neg some, same, resting, Worker.lease?, counts]
    exact comes

/-- What a thread is sent for when the counter is done with the file of its lease. -/
def leavingFor : Option Lease → Errand
  | none => .flush
  | some held => .giveBack held.slot

/-- A worker hands a lease back as the pool and its tally do at once. -/
theorem comes_handBack {lease : Option Lease} (sound : shared.counting.Sound)
    (backed : Worker.Backed shared.counting.pool lease)
    (counts : worker.counter = .counting lease) {next : Counter}
    (next_eq : next = if worker.queue.isEmpty then .done else .counting none) :
    ∃ after, Comes plan (shared, { resting worker with errand := some (leavingFor lease) })
        (after, resting { worker with counter := next }) ∧
      after.counting = (Worker.handBack plan shared.counting lease).1 := by
  have lease_eq : worker.lease? = lease := by rw [Worker.lease?, counts]
  rw [resting, lease_eq]
  cases lease with
  | none => exact comes_flush sound.shaped counts next_eq
  | some held =>
    rcases backed held rfl with ⟨marks, leased⟩
    have comes := @comes_of_alone plan shared worker (.giveBack held.slot) ⟨[held.slot], .idle⟩ _ _
      (Thread.giveBack_alone (List.mem_singleton_self _) leased) rfl rfl
    rw [List.erase_cons_head] at comes
    obtain ⟨after, flushes, counting⟩ := @comes_flush plan
      { shared.withPool (shared.counting.pool.giveBack held.slot) with
        returned := shared.returned ++ [(held.slot, marks)] }
      { worker with counter := .counting none } (sound.giveBack leased).shaped rfl next next_eq
    exact ⟨after, comes.trans flushes, counting⟩

/-! ## Marking -/

theorem comes_proceed {own : ThreadedWorker} (free : own.errand = none) :
    Comes plan (shared, own) (own.proceed shared) := by
  refine .single ?_
  rw [countTurn, free]

section

variable {held : Lease} {chunk : QueuedChunk} {rest : List QueuedChunk} {marks : MarkSet}
  (space_eq : shared.counting.tally.space = space)
  (leased : shared.counting.pool.leased? held.slot = some marks)
  (counts : worker.counter = .counting (some held)) (queued : worker.queue = chunk :: rest)
  (same : held.fileId = chunk.fileId)

section

include counts queued same

theorem comes_window :
    Comes plan (shared, resting worker) ((resting worker).markWindow shared held chunk rest) := by
  have comes := @comes_proceed plan shared (resting worker) rfl
  have turn : (resting worker).proceed shared =
      (resting worker).markWindow shared held chunk rest := by
    simp only [proceed, resting, counts, queued, if_pos same]
  rwa [turn] at comes

include space_eq

/-- A window without a slot is passed over. -/
theorem comes_over (whole : ¬ (chunk.bytes.take space.gramLength).length < space.gramLength)
    (looked : space.slot? (chunk.bytes.take space.gramLength) = .ok none) :
    Comes plan (shared, resting worker)
      (shared, resting { worker with queue := { chunk with bytes := chunk.bytes.tail } :: rest }) := by
  have comes := @comes_window plan shared worker held chunk rest counts queued same
  simp only [markWindow, space_eq, if_neg whole, looked] at comes
  exact comes

include leased

/-- A chunk that is too short for a window is done. -/
theorem comes_past (short : (chunk.bytes.take space.gramLength).length < space.gramLength) :
    Comes plan (shared, resting worker)
      (shared.withPool (shared.counting.pool.put held.slot ⟨.leased, marks⟩),
        resting { worker with queue := rest }) := by
  have comes := @comes_window plan shared worker held chunk rest counts queued same
  simp only [markWindow, space_eq, if_pos short] at comes
  have stays : shared.withPool (shared.counting.pool.put held.slot ⟨.leased, marks⟩) = shared := by
    rw [Pool.put, set_eq_self (Pool.leased?_eq_some_iff.1 leased)]
    rfl
  rw [stays]
  exact comes

/-- A window with a slot is marked. -/
theorem comes_marked {changed : MarkSet} {bit : Nat}
    (whole : ¬ (chunk.bytes.take space.gramLength).length < space.gramLength)
    (looked : space.slot? (chunk.bytes.take space.gramLength) = .ok (some bit))
    (setting : marks.set bit = .ok changed) :
    Comes plan (shared, resting worker)
      (shared.withPool (shared.counting.pool.put held.slot ⟨.leased, changed⟩),
        resting { worker with
          queue := { chunk with bytes := chunk.bytes.tail } :: rest
          marked := worker.marked + 1 }) := by
  have comes := @comes_window plan shared worker held chunk rest counts queued same
  have lease_eq : worker.lease? = some held := by rw [Worker.lease?, counts]
  have step : Thread.step shared (resting worker).thread (.set held.slot bit) =
      (shared.withPool (shared.counting.pool.put held.slot ⟨.leased, changed⟩),
        (resting worker).thread) := by
    rw [resting, lease_eq]
    refine (Thread.set_alone (List.mem_singleton_self _) leased bit).trans ?_
    rw [Pool.set, leased]
    simp only [setting, Except.map, Except.toOption, Option.getD_some]
    rfl
  simp only [markWindow, space_eq, if_neg whole, looked, step] at comes
  exact comes

end

/-- Marking the windows one by one comes to marking the chunk. -/
theorem comes_marks {bytes : Bytes} {before marked count : Nat} {final : MarkSet}
    (space_eq : shared.counting.tally.space = space)
    (leased : shared.counting.pool.leased? held.slot = some marks)
    (counts : worker.counter = .counting (some held))
    (queued : worker.queue = ⟨held.fileId, bytes⟩ :: rest)
    (marked_eq : worker.marked = before + marked)
    (run : MarkSet.markFrom space space.gramLength marked marks bytes = (final, .ok count)) :
    Comes plan (shared, resting worker)
      (shared.withPool (shared.counting.pool.put held.slot ⟨.leased, final⟩),
        resting { worker with queue := rest, marked := before + count }) := by
  -- The windows are those of `MarkSet.markFrom`, with the set that was changed before in the pool.
  induction bytes generalizing shared worker marks marked with
  | nil =>
    cases run
    rw [← marked_eq]
    refine comes_past space_eq leased counts queued rfl ?_
    rw [List.take_nil]
    exact space.gramLength_pos
  | cons byte tail ih =>
    rw [MarkSet.markFrom] at run
    split at run
    case isTrue short =>
      cases run
      rw [← marked_eq]
      exact comes_past space_eq leased counts queued rfl short
    case isFalse whole =>
      split at run
      case h_1 => cases run
      case h_2 looked =>
        refine (comes_over space_eq counts queued rfl whole looked).trans ?_
        exact @ih shared { worker with queue := ⟨held.fileId, tail⟩ :: rest } _ _ space_eq leased
          counts rfl marked_eq run
      case h_3 bit looked =>
        split at run
        case h_1 => cases run
        case h_2 changed setting =>
          have inside := (List.getElem?_eq_some_iff.1 (Pool.leased?_eq_some_iff.1 leased)).1
          have placed := @Pool.leased?_put_self shared.counting.pool held.slot ⟨.leased, changed⟩
            inside
          rw [← Pool.put_put ⟨.leased, changed⟩]
          refine (comes_marked space_eq leased counts queued rfl whole looked setting).trans ?_
          exact @ih (shared.withPool (shared.counting.pool.put held.slot ⟨.leased, changed⟩))
            { worker with queue := ⟨held.fileId, tail⟩ :: rest, marked := worker.marked + 1 } changed
            (marked + 1) space_eq placed counts rfl (congrArg (· + 1) marked_eq) run

end

/-! ## Turns -/

theorem comes_sent (turn : (resting worker).proceed shared =
    (shared, { resting worker with errand := some errand })) :
    Comes plan (shared, resting worker) (shared, { resting worker with errand := some errand }) := by
  have comes := @comes_proceed plan shared (resting worker) rfl
  rwa [turn] at comes

/-- With a chunk in the queue, a thread that is left alone leases, marks or hands back. -/
theorem comes_countChunk {lease : Option Lease} {chunk : QueuedChunk} {rest : List QueuedChunk}
    (made : space.Made) (space_eq : shared.counting.tally.space = space)
    (pooled : shared.counting.Sound) (counts : worker.counter = .counting lease)
    (queued : worker.queue = chunk :: rest) (backed : Worker.Backed shared.counting.pool lease)
    (vacant : lease = none →
      ∃ i, i < shared.counting.pool.size ∧ shared.counting.pool.leased? i = none) :
    ∃ after, Comes plan (shared, resting worker)
        (after, resting (worker.countChunk plan shared.counting lease chunk rest).2) ∧
      after.counting = (worker.countChunk plan shared.counting lease chunk rest).1 := by
  have fits : space.slots ≤ shared.counting.tally.words * 64 := by
    rw [Tally.words, space_eq]
    omega
  have lease_eq : worker.lease? = lease := by rw [Worker.lease?, counts]
  unfold Worker.countChunk
  split
  case h_1 =>
    obtain ⟨final, slot, leasing, -⟩ := Counting.lease_eq_ok pooled (vacant rfl)
    obtain ⟨after, leases, counting⟩ := @comes_lease plan shared worker chunk rest slot final
      pooled.shaped queued leasing
    have sends := @comes_sent plan shared worker .lease (by simp only [proceed, resting, counts, queued])
    rw [resting, lease_eq] at sends ⊢
    simp only [leasing]
    exact ⟨after, sends.trans leases, counting⟩
  case h_2 held =>
    rcases backed held rfl with ⟨marks, leased⟩
    split
    case isTrue same =>
      have settled := pooled.settled _ (List.mem_of_getElem? (Pool.leased?_eq_some_iff.1 leased))
      obtain ⟨final, marking, -⟩ := @MarkSet.mark_shows marks space made (by rwa [settled.size_eq])
        chunk.bytes
      simp only [Pool.mark, leased, space_eq, marking]
      rcases chunk with ⟨_, bytes⟩
      obtain rfl := same
      exact ⟨_, comes_marks space_eq leased counts queued (Nat.add_zero _).symm marking, rfl⟩
    case isFalse other =>
      obtain ⟨after, hands, counting⟩ := @comes_handBack plan shared worker (some held) pooled backed
        counts (.counting none) (by rw [queued]; rfl)
      have sends := @comes_sent plan shared worker (.giveBack held.slot) (by
        simp only [proceed, resting, counts, queued, if_neg other])
      obtain ⟨final, flushed, handing, -⟩ := @Worker.handBack_eq_ok plan _ _ pooled backed
      simp only [handing] at counting ⊢
      exact ⟨after, sends.trans hands, counting⟩

/-- What a turn of a counter comes to, a thread comes to that is left alone. -/
theorem comes_countTurn (made : space.Made) (space_eq : shared.counting.tally.space = space)
    (pooled : shared.counting.Sound)
    (backed : Worker.Backed shared.counting.pool worker.lease?)
    (vacant : worker.lease? = none →
      ∃ i, i < shared.counting.pool.size ∧ shared.counting.pool.leased? i = none) :
    ∃ after, Comes plan (shared, resting worker)
        (after, resting (worker.countTurn plan shared.counting).2) ∧
      after.counting = (worker.countTurn plan shared.counting).1 := by
  rw [Worker.countTurn]
  split
  case h_1 lease counts =>
    have lease_eq : worker.lease? = lease := by rw [Worker.lease?, counts]
    rw [lease_eq] at backed vacant
    split
    case h_1 chunk rest queued =>
      exact comes_countChunk made space_eq pooled counts queued backed vacant
    case h_2 empty =>
      split
      case isTrue finished =>
        obtain ⟨after, hands, counting⟩ := @comes_handBack plan shared worker lease pooled backed
          counts .done (by rw [empty]; rfl)
        have sends := @comes_sent plan shared worker (leavingFor lease) (by
          cases lease <;> simp only [proceed, resting, counts, empty, finished, if_true, leavingFor])
        obtain ⟨final, flushed, handing, -⟩ := @Worker.handBack_eq_ok plan _ _ pooled backed
        simp only [handing] at counting ⊢
        exact ⟨after, sends.trans hands, counting⟩
      case isFalse => exact ⟨shared, .refl, rfl⟩
  case h_2 => exact ⟨shared, .refl, rfl⟩

end ThreadedWorker

namespace ThreadedPass

variable {plan : PassPlan} {space : Space} {shared : SharedPool}

/-- A pass whose threads are on no errands. -/
def resting (state : PassState) (shared : SharedPool) : ThreadedPass :=
  ⟨state.files, state.workers.map .resting, shared⟩

theorem plain_resting {state : PassState} (counting_eq : shared.counting = state.counting) :
    (resting state shared).plain = state := by
  have workers : (state.workers.map ThreadedWorker.resting).map (·.worker) = state.workers := by
    rw [List.map_map]
    exact List.map_id _
  rw [plain, resting, workers, counting_eq]

variable [Memory]

theorem run_append (state : ThreadedPass) (before behind : List Turn) :
    state.run plan (before ++ behind) = (state.run plan before).run plan behind :=
  List.foldl_append

/-- Turns of one counter on its own are a run of the pass. -/
theorem run_of_comes {state : ThreadedPass} {k : Nat} {own : ThreadedWorker}
    {after : SharedPool × ThreadedWorker} (found : state.workers[k]? = some own)
    (comes : ThreadedWorker.Comes plan (state.shared, own) after) :
    ∃ steps, state.run plan steps =
      { state with shared := after.1, workers := state.workers.set k after.2 } := by
  induction comes with
  | refl => exact ⟨[], by rw [set_eq_self found]; rfl⟩
  | @tail middle final _ turn ih =>
    rcases ih with ⟨steps, runs⟩
    have inside := (List.getElem?_eq_some_iff.1 found).1
    refine ⟨steps ++ [⟨k, .counter⟩], ?_⟩
    rw [run_append, runs, turn]
    simp only [run, List.foldl_cons, List.foldl_nil, ThreadedPass.turn,
      List.getElem?_set_self inside, List.set_set]

/-- Every turn of a pass is a run of single steps. -/
theorem exists_run_turn {state : PassState} (made : space.Made) (fits : plan.Fits space)
    (sound : state.Sound plan space) (counting_eq : shared.counting = state.counting) (t : Turn) :
    ∃ steps after, (resting state shared).run plan steps = resting (state.turn plan t) after ∧
      after.counting = (state.turn plan t).counting := by
  rw [PassState.turn]
  split
  case h_1 => exact ⟨[], shared, rfl, counting_eq⟩
  case h_2 worker found =>
    have rests : (resting state shared).workers[t.worker]? = some (.resting worker) := by
      rw [resting, List.getElem?_map, found, Option.map_some]
    have own := sound.workers worker (List.mem_of_getElem? found)
    split
    case h_1 half =>
      -- A turn of the reader is one step in either pass, and it leaves the lease as it is.
      have lease_eq := Worker.lease?_of_readStep
        (@Worker.readStep_readTurn plan space state.files worker _ fits own)
      refine ⟨[t], shared, ?_, counting_eq⟩
      rw [run, List.foldl_cons, List.foldl_nil, turn, rests, half]
      simp only [resting, List.map_set, ThreadedWorker.resting, lease_eq]
    case h_2 half =>
      obtain ⟨after, comes, counting⟩ := @ThreadedWorker.comes_countTurn plan space shared worker made
        (counting_eq ▸ sound.space_eq) (counting_eq ▸ sound.pooled)
        (counting_eq ▸ sound.backed found) (fun _ => counting_eq ▸ sound.vacant)
      rw [counting_eq] at comes counting
      rcases run_of_comes rests comes with ⟨steps, runs⟩
      refine ⟨steps, after, ?_, counting⟩
      rw [runs]
      simp only [resting, List.map_set]

end ThreadedPass

namespace Pass

variable {settings : Settings} {space : Space} {files : List OpenedFile}

theorem threaded_opening : (opening settings space files).threaded =
    .resting (opening settings space files) ⟨(opening settings space files).counting, [], []⟩ := by
  rw [ThreadedPass.resting, PassState.threaded]
  congr 1
  apply List.map_congr_left
  intro worker member
  obtain rfl := List.eq_of_mem_replicate member
  rfl

variable [Memory]

/-- Whether single steps come to a state of a pass, with all threads back from the pool. -/
def Reached (settings : Settings) (space : Space) (files : List OpenedFile) (state : PassState) :
    Prop :=
  ∃ steps shared, interrupted settings space files steps = .resting state shared ∧
    shared.counting = state.counting

theorem reached_turn {state : PassState} (made : space.Made)
    (fits : (settings.plan space).Fits space) (sound : state.Sound (settings.plan space) space)
    (reached : Reached settings space files state) (t : Turn) :
    Reached settings space files (state.turn (settings.plan space) t) := by
  rcases reached with ⟨steps, shared, runs, counting_eq⟩
  obtain ⟨more, after, goesOn, same⟩ := ThreadedPass.exists_run_turn made fits sound counting_eq t
  refine ⟨steps ++ more, after, ?_, same⟩
  rw [interrupted, ThreadedPass.run_append, ← interrupted, runs, goesOn]

/-- A pass is one with threads, under a schedule in which every errand is done before anybody else
has a turn. -/
theorem exists_interrupted_eq_closing (valid : settings.check = .ok ()) (made : space.Made)
    (ascending : files.Pairwise fun a b => a.id < b.id) (schedule : List Turn) :
    ∃ steps, (interrupted settings space files steps).plain =
      closing settings space files schedule := by
  have fits := fits_plan valid space
  have keeps : ∀ state t,
      state.Sound (settings.plan space) space ∧ Reached settings space files state →
        (state.turn (settings.plan space) t).Sound (settings.plan space) space ∧
          Reached settings space files (state.turn (settings.plan space) t) :=
    fun state t before => ⟨PassState.sound_turn made fits state t before.1,
      reached_turn made fits before.1 before.2 t⟩
  obtain ⟨-, steps, shared, runs, counting_eq⟩ := run_induction keeps schedule
    ⟨sound_opening valid ascending, [], _, threaded_opening, rfl⟩
  refine ⟨steps, ?_⟩
  rw [runs]
  exact ThreadedPass.plain_resting counting_eq

end Pass

end GramCensus
