import GramCensus.Proofs.Pass.Outcome

/-!
# Which passes fail

Where there is memory for every chunk, the one thing that can go wrong in a pass is that reading a
file breaks down. Such a file is found under every schedule: it is opened unless all readers have
stopped before, and a reader that reaches the fault stops (`PassState.Supplied`). So a pass fails
exactly if some file breaks its reading down (`Pass.count_of_breaks`, `Pass.count_of_intact`).
-/

namespace GramCensus

def OpenedFile.Breaks (file : OpenedFile) : Prop :=
  file.stream.ending = .broken

def OpenedFile.Roomy [Memory] (plan : PassPlan) (file : OpenedFile) : Prop :=
  (Chunker.start file.stream plan.chunkSize plan.overlap).Roomy

namespace Worker

variable {plan : PassPlan} {space : Space} {files : List OpenedFile} {worker : Worker}
  {counting : Counting}

/-- A reader has broken down, or will do so on the file that it reads. -/
def Breaks (worker : Worker) : Prop :=
  worker.reader = .broken ∨ ∃ chunker, worker.chunker? = some chunker ∧ chunker.ending = .broken

def Roomy [Memory] (worker : Worker) : Prop :=
  ∀ chunker, worker.chunker? = some chunker → chunker.Roomy

theorem breaks_reading {fileId carried : Nat} {chunker : Chunker}
    (reading : worker.reader = .reading fileId chunker carried) :
    worker.Breaks ↔ chunker.ending = .broken := by
  rw [Breaks, chunker?, reading]
  constructor
  · rintro (none | ⟨other, same, broken⟩)
    · cases none
    · rw [Option.some.inj same]
      exact broken
  · exact fun broken => .inr ⟨chunker, rfl, broken⟩

theorem not_breaks_idle (idle : worker.reader = .idle) : ¬ worker.Breaks := by
  rw [Breaks, chunker?, idle]
  rintro (none | ⟨other, none, -⟩)
  · cases none
  · cases none

/-- With memory, a turn of the reader neither loses nor finds a file that breaks reading down, and
never runs out of memory. -/
theorem breaks_of_readStep [Memory] (sound : worker.Sound plan) (roomy : worker.Roomy)
    (rooms : ∀ file ∈ files, file.Roomy plan) {after : List OpenedFile × Worker}
    (step : ReadStep plan files worker after) :
    ((after.2.Breaks ∨ ∃ file ∈ after.1, file.Breaks) ↔
        worker.Breaks ∨ ∃ file ∈ files, file.Breaks) ∧
      after.2.Roomy ∧ (after.2.reader = .exhausted → worker.reader = .exhausted) := by
  cases step with
  | waits => exact ⟨Iff.rfl, roomy, id⟩
  | ends idle none =>
    subst none
    refine ⟨or_congr ⟨?_, fun breaks => absurd breaks (not_breaks_idle idle)⟩ Iff.rfl,
      (fun chunker found => by cases found), fun none => by cases none⟩
    rintro (none | ⟨chunker, none, -⟩)
    · cases none
    · cases none
  | @opens file rest taken idle next =>
    subst next
    refine ⟨?_, ?_, fun none => by cases none⟩
    · rw [breaks_reading rfl, or_iff_right (not_breaks_idle idle)]
      simp only [List.mem_cons, exists_eq_or_imp]
      rfl
    · intro chunker found
      rw [← Option.some.inj found]
      exact rooms file List.mem_cons_self
  | @reads fileId carried next bytes chunks chunker later new reading advances =>
    refine ⟨?_, ?_, fun none => by cases none⟩
    · rw [breaks_reading rfl, breaks_reading reading, advances.ending_eq]
    · intro other found
      rw [← Option.some.inj found]
      exact advances.roomy (roomy chunker (by rw [chunker?, reading]))
  | @closes fileId carried chunker reading none stop =>
    have intact : chunker.ending ≠ .broken := by
      -- A file that is closed has ended otherwise.
      rcases stop with ended | ⟨text, failed⟩
      · simp [ended]
      · simp [failed]
    refine ⟨?_, (fun other found => by cases found), fun none => by cases none⟩
    rw [breaks_reading reading, or_iff_right intact, or_iff_right (not_breaks_idle rfl)]
  | @stops fileId carried chunker reader reading stopped reason =>
    have follows := sound.follows chunker (by rw [chunker?, reading])
    have room := roomy chunker (by rw [chunker?, reading])
    -- A reader that stops has met the fault, as it never lacks room for a chunk.
    rcases reason with ⟨rfl, broken⟩ | ⟨running, crowded⟩
    · refine ⟨?_, (fun other found => by cases found), fun none => by cases none⟩
      rw [breaks_reading reading]
      exact or_congr (iff_of_true (.inl rfl) broken) Iff.rfl
    · refine absurd (Chunker.makeRoom_of_roomy running ?_ room) crowded
      rw [follows.overlap_eq]
      exact follows.context

end Worker

namespace PassState

variable {plan : PassPlan} {space : Space} {state : PassState}

variable [Memory]

/-- There is memory for all chunks, nobody has run out of memory, and the files that break reading
down are found or still to come exactly if there are any. -/
structure Supplied (plan : PassPlan) (fault : Prop) (state : PassState) : Prop where
  rooms : ∀ file ∈ state.files, file.Roomy plan
  roomy : ∀ worker ∈ state.workers, worker.Roomy
  running : ∀ worker ∈ state.workers, worker.reader ≠ .exhausted
  breaks : ((∃ worker ∈ state.workers, worker.Breaks) ∨ ∃ file ∈ state.files, file.Breaks) ↔ fault

theorem supplied_step {fault : Prop} (sound : state.Sound plan space)
    (supplied : state.Supplied plan fault) {after : PassState}
    (step : state.Step plan space after) : after.Supplied plan fault := by
  cases step with
  | absent => exact supplied
  | @reads k worker after found step =>
    have member := List.mem_of_getElem? found
    have fewer := (Worker.ahead_of_readStep step (sound.ahead worker member) sound.ascending).1
    obtain ⟨breaks, roomy, exhausted⟩ := Worker.breaks_of_readStep (sound.workers worker member)
      (supplied.roomy worker member) supplied.rooms step
    refine ⟨fun file listed => supplied.rooms file (fewer.subset listed), ?roomy, ?running, ?breaks⟩
    case roomy =>
      intro other listed
      rcases List.mem_or_eq_of_mem_set listed with old | rfl
      · exact supplied.roomy other old
      · exact roomy
    case running =>
      intro other listed
      rcases List.mem_or_eq_of_mem_set listed with old | rfl
      · exact supplied.running other old
      · exact fun stopped => supplied.running worker member (exhausted stopped)
    case breaks =>
      -- Of the workers only one has changed, and it has changed together with the files.
      rw [← supplied.breaks, exists_mem_set_iff _ found, exists_mem_iff found, or_right_comm, breaks,
        or_right_comm]
  | @counts k worker after found step =>
    have same := Worker.reader_of_countStep step
    have kept : after.2.chunker? = worker.chunker? := by rw [Worker.chunker?, same, Worker.chunker?]
    refine ⟨supplied.rooms, ?roomy, ?running, ?breaks⟩
    case roomy =>
      intro other listed
      rcases List.mem_or_eq_of_mem_set listed with old | rfl
      · exact supplied.roomy other old
      · rw [Worker.Roomy, kept]
        exact supplied.roomy worker (List.mem_of_getElem? found)
    case running =>
      intro other listed
      rcases List.mem_or_eq_of_mem_set listed with old | rfl
      · exact supplied.running other old
      · rw [same]
        exact supplied.running worker (List.mem_of_getElem? found)
    case breaks =>
      rw [← supplied.breaks, exists_mem_set_iff _ found, exists_mem_iff found, Worker.Breaks, same,
        kept, Worker.Breaks]

/-- At the end a reader has stopped exactly if some file breaks reading down. -/
theorem Supplied.stopped_iff {fault : Prop} {workers : Nat}
    (supplied : state.Supplied plan fault) (accounts : state.Accounts workers plan space)
    (finished : state.isFinished = true) (some : 0 < workers) :
    (∃ worker ∈ state.workers, worker.reader = .broken) ↔ fault := by
  constructor
  · rintro ⟨worker, member, broken⟩
    exact supplied.breaks.1 (.inl ⟨worker, member, .inl broken⟩)
  · intro breaks
    rcases supplied.breaks.2 breaks with
      ⟨worker, member, broken | ⟨chunker, reads, -⟩⟩ | ⟨file, left, -⟩
    · exact ⟨worker, member, broken⟩
    · have ended := (accounts.sound.counter_eq_done finished member).2
      rw [Worker.chunker?] at reads
      split at reads
      case h_1 reading => simp [reading, Reader.isFinished] at ended
      case h_2 => cases reads
    · -- A file that is left was opened by nobody, so all readers have stopped before.
      apply Classical.byContradiction
      intro none
      have running : ¬ state.Stopped := by
        rintro ⟨worker, member, broken | exhausted⟩
        · exact none ⟨worker, member, broken⟩
        · exact supplied.running worker member exhausted
      rw [accounts.files_eq_nil finished some running] at left
      cases left

end PassState

namespace Pass

variable {settings : Settings} {space : Space} {files : List OpenedFile}

variable [Memory]

/-- There is memory for all chunks of some files, with any overlap that n-grams of a length need. -/
def Readable (settings : Settings) (space : Space) (files : List OpenedFile) : Prop :=
  ∀ file ∈ files, file.Roomy (settings.plan space)

/-- Where the largest chunk has room that a plan allows for, all files can be read. -/
theorem readable_of_hasRoom (kept : hasRoom .untouched (space.gramLength - 1) 1 = true)
    (filled : hasRoom .filled (space.gramLength - 1 + max settings.chunkSize 1) 1 = true) :
    Readable settings space files := by
  intro file _
  refine .inr ⟨kept, ?_⟩
  rw [hasRoom_bytes] at filled ⊢
  simp only [Chunker.start, Settings.plan]
  omega

theorem supplied_opening (readable : Readable settings space files) :
    (opening settings space files).Supplied (settings.plan space) (∃ file ∈ files, file.Breaks) := by
  refine ⟨readable, ?_, ?_, or_iff_right ?_⟩
  · intro worker member chunker found
    obtain rfl := List.eq_of_mem_replicate member
    cases found
  · intro worker member exhausted
    obtain rfl := List.eq_of_mem_replicate member
    cases exhausted
  · rintro ⟨worker, member, breaks⟩
    obtain rfl := List.eq_of_mem_replicate member
    exact Worker.not_breaks_idle rfl breaks

/-- With memory, a pass ends with a reader broken down exactly if some file breaks reading down. -/
theorem supplied_closing (valid : settings.check = .ok ()) (made : space.Made)
    (ascending : files.Pairwise fun a b => a.id < b.id)
    (readable : Readable settings space files) (schedule : List Turn) :
    (closing settings space files schedule).Supplied (settings.plan space)
      (∃ file ∈ files, file.Breaks) := by
  have fits := fits_plan valid space
  have sound : (opening settings space files).Sound (settings.plan space) space :=
    sound_opening valid ascending
  refine (@run_induction settings space _ _ (fun state => state.Sound (settings.plan space) space ∧
    state.Supplied (settings.plan space) (∃ file ∈ files, file.Breaks)) (fun state t both => ?_)
    schedule ⟨sound, supplied_opening readable⟩).2
  have step := PassState.step_turn made fits both.1 t
  exact ⟨PassState.sound_step fits both.1 step, PassState.supplied_step both.1 both.2 step⟩

/-- With memory, a pass over files none of which breaks reading down succeeds. -/
theorem count_of_intact (valid : settings.check = .ok ()) (made : space.Made)
    (ascending : files.Pairwise fun a b => a.id < b.id)
    (memory : HasMemory settings space) (readable : Readable settings space files)
    (intact : ∀ file ∈ files, ¬ file.Breaks) (schedule : List Turn) :
    ∃ tally totals, count settings space files schedule = .ok (tally, totals) := by
  rcases check_eq_ok valid with ⟨-, -, -, crew, -, -, -, -⟩
  rcases accounts_closing valid made ascending schedule with ⟨accounts, finished⟩
  have supplied := supplied_closing valid made ascending readable schedule
  refine count_of_not_stopped valid made ascending memory ?_
  rintro ⟨worker, member, broken | exhausted⟩
  · obtain ⟨file, listed, breaks⟩ :=
      (supplied.stopped_iff accounts finished crew).1 ⟨worker, member, broken⟩
    exact intact file listed breaks
  · exact supplied.running worker member exhausted

end Pass

end GramCensus
