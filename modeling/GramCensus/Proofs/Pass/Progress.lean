import GramCensus.Proofs.Pass.Ledger

/-!
# Every pass comes to its end

The work that is left of a pass is a number (`PassState.work`) that no turn increases and that every
turn decreases in which something gets done. While some worker is not finished, one of its halves
can get something done (`PassState.exists_work_turn_lt`), so rotation decreases the number, and the
rounds that a pass is given are always enough (`PassState.isFinished_finish`).
-/

namespace GramCensus

namespace Worker

variable {plan : PassPlan} {space : Space} {files : List OpenedFile} {worker : Worker}
  {counting : Counting}

/-! ## The work that is left -/

def fileWork (file : OpenedFile) : Nat :=
  4 * Stream.byteCount file.stream + 3

/-- The turns that are left of what a reader is about. -/
def readerWork : Reader → Nat
  | .idle => 1
  | .reading _ chunker _ => 4 * Stream.byteCount chunker.stream + 2
  | .done | .broken | .exhausted => 0

/-- The turns until the next chunk is marked, the end of the counter included. A lease for another
file has to be exchanged first. -/
def leaseWork (lease : Option Lease) : List QueuedChunk → Nat
  | [] => 2
  | chunk :: _ =>
    match lease with
    | none => 1
    | some held => if held.fileId = chunk.fileId then 0 else 2

theorem leaseWork_le (lease : Option Lease) (queue : List QueuedChunk) :
    leaseWork lease queue ≤ 2 := by
  unfold leaseWork
  split
  · exact Nat.le_refl 2
  · split
    · exact Nat.le_succ 1
    · split <;> omega

/-- A chunk at the end of a queue brings the next one no further away. -/
theorem leaseWork_append_le (lease : Option Lease) (queue : List QueuedChunk) (chunk : QueuedChunk) :
    leaseWork lease (queue ++ [chunk]) ≤ leaseWork lease queue := by
  cases queue with
  | nil => exact leaseWork_le lease [chunk]
  | cons first rest => exact Nat.le_refl _

/-- The turns that are left of what a counter is about, apart from the chunks in the queue. -/
def counterWork (counter : Counter) (queue : List QueuedChunk) : Nat :=
  match counter with
  | .counting lease => 1 + leaseWork lease queue
  | _ => 0

theorem counterWork_append_le (counter : Counter) (queue : List QueuedChunk) (chunk : QueuedChunk) :
    counterWork counter (queue ++ [chunk]) ≤ counterWork counter queue := by
  cases counter with
  | counting lease => exact Nat.add_le_add_left (leaseWork_append_le lease queue chunk) 1
  | done => exact Nat.le_refl 0
  | failed failure => exact Nat.le_refl 0

/-- The turns that are left of a worker's part. -/
def work (worker : Worker) : Nat :=
  readerWork worker.reader + 3 * worker.queue.length + counterWork worker.counter worker.queue

/-- A turn of the reader gets something done, unless it has to wait. -/
theorem work_of_readStep [Memory] {after : List OpenedFile × Worker}
    (step : ReadStep plan files worker after) :
    after = (files, worker) ∧
        (worker.reader.isFinished = true ∨ plan.queueDepth ≤ worker.queue.length) ∨
      after.2.work + (after.1.map fileWork).sum < worker.work + (files.map fileWork).sum := by
  cases step with
  | waits reason => exact .inl ⟨rfl, reason⟩
  | ends idle none =>
    subst none
    refine .inr ?_
    simp only [work, idle, readerWork]
    omega
  | @opens file rest taken idle next =>
    subst next
    refine .inr ?_
    simp only [work, idle, readerWork, List.map_cons, List.sum_cons, fileWork, Chunker.start]
    omega
  | @reads fileId carried next bytes chunks chunker later new reading advances =>
    have positive := List.length_pos_iff.2 advances.nonempty
    have shorter := advances.shorter
    have counter := counterWork_append_le worker.counter worker.queue
      ⟨fileId, chunker.context ++ new⟩
    refine .inr ?_
    -- A chunk takes a byte or more off the file, whose four turns are enough to mark the chunk.
    simp only [work, reading, readerWork, List.length_append, List.length_singleton]
    omega
  | closes reading none stop =>
    refine .inr ?_
    simp only [work, reading, readerWork]
    omega
  | stops reading stopped reason =>
    refine .inr ?_
    rcases stopped with rfl | rfl
    · simp only [work, reading, readerWork]
      omega
    · simp only [work, reading, readerWork]
      omega

/-- A turn of the counter gets something done, unless it has to wait. -/
theorem work_of_countStep {after : Counting × Worker}
    (step : CountStep space counting worker after) :
    after = (counting, worker) ∧
        (worker.counter = .done ∨ worker.queue = [] ∧ worker.reader.isFinished = false) ∨
      after.2.work < worker.work := by
  cases step with
  | waits reason => exact .inl ⟨rfl, reason⟩
  | leases counts queued =>
    refine .inr ?_
    simp only [work, counts, queued, counterWork, leaseWork, if_true]
    omega
  | @marks lease chunk rest marks changed marked counts queued same =>
    -- The lease was the right one, and at most it has to be exchanged for the next chunk.
    have now : leaseWork (some lease) (chunk :: rest) = 0 := if_pos same
    have next := leaseWork_le (some lease) rest
    refine .inr ?_
    simp only [work, counts, queued, counterWork, now, List.length_cons]
    omega
  | returns counts queued other hands =>
    refine .inr ?_
    simp only [work, counts, queued, counterWork, leaseWork, if_neg other]
    omega
  | ends counts empty finished hands =>
    refine .inr ?_
    simp only [work, counts, empty, counterWork, leaseWork]
    omega

end Worker

namespace PassState

variable {plan : PassPlan} {space : Space} {state : PassState}

def work (state : PassState) : Nat :=
  (state.files.map Worker.fileWork).sum + (state.workers.map Worker.work).sum

/-! ## Turns -/

/-- The turns of a rotation, in their order. -/
def rotation (workers : Nat) : List Turn :=
  (List.range workers).flatMap fun i => [⟨i, .reader⟩, ⟨i, .counter⟩]

theorem mem_rotation {workers : Nat} {t : Turn} (inside : t.worker < workers) :
    t ∈ rotation workers := by
  refine List.mem_flatMap.2 ⟨t.worker, List.mem_range.2 inside, ?_⟩
  rcases t with ⟨k, half⟩
  cases half
  · exact List.mem_cons_self
  · exact List.mem_cons_of_mem _ List.mem_cons_self

variable [Memory]

/-- A turn changes nothing or gets something done. -/
theorem work_step {after : PassState} (step : state.Step plan space after) :
    after = state ∨ after.work < state.work := by
  cases step with
  | absent => exact .inl rfl
  | @reads k worker after found step =>
    rcases Worker.work_of_readStep step with ⟨rfl, -⟩ | less
    · exact .inl (by rw [set_eq_self found])
    · have total := @sum_map_set _ _ Worker.work _ _ _ after.2 found fun _ _ _ _ => rfl
      refine .inr ?_
      simp only [work]
      omega
  | @counts k worker after found step =>
    rcases Worker.work_of_countStep step with ⟨rfl, -⟩ | less
    · exact .inl (by rw [set_eq_self found])
    · have total := @sum_map_set _ _ Worker.work _ _ _ after.2 found fun _ _ _ _ => rfl
      refine .inr ?_
      simp only [work]
      omega

/-- While a worker is not finished, one of its halves can get something done. -/
theorem exists_work_turn_lt (made : space.Made) (fits : plan.Fits space)
    (sound : state.Sound plan space) (unfinished : state.isFinished = false) :
    ∃ t : Turn, t.worker < state.workers.length ∧ (state.turn plan t).work < state.work := by
  obtain ⟨worker, member, running⟩ : ∃ worker ∈ state.workers, worker.isFinished = false := by
    simpa [isFinished] using unfinished
  rcases List.getElem?_of_mem member with ⟨k, found⟩
  rcases List.getElem?_eq_some_iff.1 found with ⟨inside, -⟩
  have own := sound.workers worker member
  have reads := @Worker.readStep_readTurn plan space state.files worker _ fits own
  have counts := @Worker.countStep_countTurn plan space worker state.counting made sound.space_eq own
    sound.pooled (sound.backed found) fun _ => sound.vacant
  rcases Worker.work_of_readStep reads with ⟨-, readerWaits⟩ | less
  · rcases Worker.work_of_countStep counts with ⟨-, counterWaits⟩ | less
    · -- Neither half can do anything only where both are finished.
      exfalso
      rw [Worker.isFinished] at running
      rcases counterWaits with done | ⟨empty, reading⟩
      · rw [done, (own.drained done).2] at running
        cases running
      · rcases readerWaits with finished | full
        · rw [finished] at reading
          cases reading
        · rw [empty] at full
          exact absurd fits.queue (Nat.not_lt.2 full)
    · refine ⟨⟨k, .counter⟩, inside, ?_⟩
      have total := @sum_map_set _ _ Worker.work _ _ _
        (worker.countTurn plan state.counting).2 found fun _ _ _ _ => rfl
      simp only [turn, found, work]
      omega
  · refine ⟨⟨k, .reader⟩, inside, ?_⟩
    have total := @sum_map_set _ _ Worker.work _ _ _
      (worker.readTurn plan state.files).2 found fun _ _ _ _ => rfl
    simp only [turn, found, work]
    omega

/-! ## Runs of turns -/

theorem rotate_eq_foldl (plan : PassPlan) (state : PassState) :
    state.rotate plan = (rotation state.workers.length).foldl (·.turn plan) state := by
  rw [rotate, rotation, List.foldl_flatMap]
  rfl

theorem foldl_turn_induction {P : PassState → Prop}
    (keeps : ∀ state t, P state → P (state.turn plan t)) (turns : List Turn) {state : PassState}
    (holds : P state) : P (turns.foldl (·.turn plan) state) := by
  induction turns generalizing state with
  | nil => exact holds
  | cons t rest ih => exact ih (keeps state t holds)

/-- What every turn keeps, a pass keeps to its end. -/
theorem finish_induction {P : PassState → Prop}
    (keeps : ∀ state t, P state → P (state.turn plan t)) (rounds : Nat) {state : PassState}
    (holds : P state) : P (state.finish plan rounds) := by
  induction rounds generalizing state with
  | zero => exact holds
  | succ rounds ih =>
    rw [finish]
    split
    · exact holds
    · rw [rotate_eq_foldl]
      exact ih (foldl_turn_induction keeps _ holds)

theorem sound_turn (made : space.Made) (fits : plan.Fits space) (state : PassState) (t : Turn)
    (sound : state.Sound plan space) : (state.turn plan t).Sound plan space :=
  sound_step fits sound (step_turn made fits sound t)

/-- A run of turns gets something done, unless none of its turns could at the start. -/
theorem work_foldl_turn (made : space.Made) (fits : plan.Fits space) (turns : List Turn)
    (sound : state.Sound plan space) :
    (turns.foldl (·.turn plan) state = state ∧ ∀ t ∈ turns, state.turn plan t = state) ∨
      (turns.foldl (·.turn plan) state).work < state.work := by
  induction turns generalizing state with
  | nil => exact .inl ⟨rfl, fun _ member => by cases member⟩
  | cons t rest ih =>
    have later := ih (sound_turn made fits state t sound)
    rw [List.foldl_cons]
    rcases work_step (step_turn made fits sound t) with same | less
    · rw [same] at later ⊢
      rcases later with ⟨stays, none⟩ | less
      · exact .inl ⟨stays, List.forall_mem_cons.2 ⟨same, none⟩⟩
      · exact .inr less
    · refine .inr ?_
      rcases later with ⟨stays, -⟩ | lesser
      · rwa [stays]
      · exact Nat.lt_trans lesser less

/-- A rotation gets something done as long as some worker is not finished. -/
theorem work_rotate_lt (made : space.Made) (fits : plan.Fits space)
    (sound : state.Sound plan space) (unfinished : state.isFinished = false) :
    (state.rotate plan).work < state.work := by
  rw [rotate_eq_foldl]
  rcases work_foldl_turn made fits (rotation state.workers.length) sound with ⟨-, none⟩ | less
  · -- The turn that can get something done is one of the rotation.
    rcases exists_work_turn_lt made fits sound unfinished with ⟨t, inside, less⟩
    rw [none t (mem_rotation inside)] at less
    exact absurd less (Nat.lt_irrefl _)
  · exact less

/-- As many rounds as there is work finish a pass. -/
theorem isFinished_finish (made : space.Made) (fits : plan.Fits space) {rounds : Nat}
    (sound : state.Sound plan space) (enough : state.work ≤ rounds) :
    (state.finish plan rounds).isFinished = true := by
  induction rounds generalizing state with
  | zero =>
    cases finished : state.isFinished with
    | true => exact finished
    | false => exact absurd (work_rotate_lt made fits sound finished) (by omega)
  | succ rounds ih =>
    rw [finish]
    split
    case isTrue finished => exact finished
    case isFalse unfinished =>
      have less := work_rotate_lt made fits sound (by simpa using unfinished)
      refine ih ?_ (by omega)
      rw [rotate_eq_foldl]
      exact foldl_turn_induction (sound_turn made fits) _ sound

end PassState

namespace Pass

variable {settings : Settings} {space : Space} {state : PassState}

/-- What every turn keeps, a pass keeps under every schedule. -/
theorem run_induction [Memory] {P : PassState → Prop}
    (keeps : ∀ state t, P state → P (state.turn (settings.plan space) t)) (schedule : List Turn)
    (holds : P state) : P (run settings space schedule state) :=
  PassState.finish_induction keeps _ (PassState.foldl_turn_induction keeps schedule holds)

/-- At its start a pass has less work than it has rounds. -/
theorem work_start_le (files : List OpenedFile) (workers : Nat) :
    (files.map Worker.fileWork).sum + ((List.replicate workers Worker.fresh).map Worker.work).sum ≤
      PassState.enoughRounds files workers := by
  have fresh : ((List.replicate workers Worker.fresh).map Worker.work).sum = workers * 4 := by
    rw [List.map_replicate, List.sum_replicate_nat]
    rfl
  have each : (files.map Worker.fileWork).sum ≤
      (files.map fun file => 8 * (Stream.byteCount file.stream + 4)).sum := by
    induction files with
    | nil => exact Nat.le_refl _
    | cons file rest ih =>
      simp only [List.map_cons, List.sum_cons, Worker.fileWork]
      omega
  rw [fresh, PassState.enoughRounds, sumOf_eq_sum]
  omega

/-- Under every schedule a pass comes to its end. -/
theorem isFinished_run [Memory] (made : space.Made) (fits : (settings.plan space).Fits space)
    (sound : state.Sound (settings.plan space) space)
    (enough : state.work ≤ PassState.enoughRounds state.files state.workers.length)
    (schedule : List Turn) : (run settings space schedule state).isFinished = true := by
  refine PassState.isFinished_finish made fits
    (PassState.foldl_turn_induction (PassState.sound_turn made fits) schedule sound) ?_
  rcases PassState.work_foldl_turn made fits schedule sound with ⟨stays, -⟩ | less
  · rwa [stays]
  · calc
      (schedule.foldl (·.turn (settings.plan space)) state).work ≤ state.work := Nat.le_of_lt less
      _ ≤ PassState.enoughRounds state.files state.workers.length := enough

end Pass

end GramCensus
