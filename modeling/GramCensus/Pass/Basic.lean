import GramCensus.Pass.Worker
import GramCensus.Settings

/-!
# Passes over a corpus

A pass counts, for every n-gram of a space, in how many files it occurs. Its workers share the
files, the pool and the tally. Which half of which worker has the next turn is left to a schedule;
behind the schedule all workers have turns in rotation until they are finished, so that every
schedule stands for one way the work may be interleaved.
-/

namespace GramCensus

/-- The next turn: a half of one of the workers. -/
structure Turn where
  worker : Nat
  half : WorkerHalf
  deriving DecidableEq, Repr

/-- A pass under way: the files that nobody has taken yet, the workers, and what they share. -/
structure PassState where
  files : List OpenedFile
  workers : List Worker
  counting : Counting

/-- What a pass has seen. -/
structure PassTotals where
  files : Nat
  /-- The bytes of all chunks; those that begin a chunk because the one before ended with them
  count once. -/
  bytes : Nat
  chunks : Nat
  /-- The windows that were in the space. -/
  marked : Nat
  /-- The mark sets that were counted. -/
  flushedSets : Nat
  flushes : Nat
  /-- The times that a worker had to wait for a mark set. -/
  waits : Nat
  deriving DecidableEq, Repr

namespace PassState

/-! ## Turns -/

variable [Memory]

/-- Gives a turn. -/
def turn (plan : PassPlan) (state : PassState) (t : Turn) : PassState :=
  match state.workers[t.worker]? with
  | none => state
  | some worker =>
    match t.half with
    | .reader =>
      let (files, after) := worker.readTurn plan state.files
      { state with files, workers := state.workers.set t.worker after }
    | .counter =>
      let (counting, after) := worker.countTurn plan state.counting
      { state with counting, workers := state.workers.set t.worker after }

/-- Gives a turn to both halves of every worker. -/
def rotate (plan : PassPlan) (state : PassState) : PassState :=
  (List.range state.workers.length).foldl
    (fun state i => (state.turn plan ⟨i, .reader⟩).turn plan ⟨i, .counter⟩) state

def isFinished (state : PassState) : Bool :=
  state.workers.all Worker.isFinished

/-- Gives turns in rotation, at most `rounds` times over, until all workers are finished. -/
def finish (plan : PassPlan) : (rounds : Nat) → PassState → PassState
  | 0, state => state
  | rounds + 1, state =>
    if state.isFinished then state else finish plan rounds (state.rotate plan)

/-- A number of rounds that is always enough: a file needs no more turns that get something done
than eight for each of its bytes and a few for its beginning and its end. -/
def enoughRounds (files : List OpenedFile) (workers : Nat) : Nat :=
  sumOf (files.map fun file => 8 * (Stream.byteCount file.stream + 4)) + 8 * workers + 8

/-! ## Results -/

/-- The failure that ended the program, or else that of the first worker that has one. -/
def failure? (state : PassState) : Option Failure :=
  let failures := state.workers.filterMap Worker.failure?
  (failures.find? Failure.endsProgram).or failures.head?

/-- What the workers and the pool have seen. -/
def totals (state : PassState) : PassTotals where
  files := sumOf (state.workers.map (·.files))
  bytes := sumOf (state.workers.map (·.bytes))
  chunks := sumOf (state.workers.map (·.chunks))
  marked := sumOf (state.workers.map (·.marked))
  flushedSets := state.counting.pool.flushedSets
  flushes := state.counting.pool.flushes
  waits := state.counting.pool.waits

end PassState

/-- How a pass over a space works under some settings. Chunks overlap by one byte less than the
length of the n-grams. -/
def Settings.plan (settings : Settings) (space : Space) : PassPlan where
  chunkSize := settings.chunkSize
  overlap := space.gramLength - 1
  queueDepth := settings.queueDepth
  groupSize := settings.groupSize

namespace Pass

variable [Memory]

/-- The bytes of a place in a queue. -/
def queuePlaceBytes : Nat := 40

/-- A pass over some files at its start, with a mark set for every worker and for every member of
a group, and with room for the queues. -/
def start (settings : Settings) (space : Space) (files : List OpenedFile) :
    Except Failure PassState := do
  let tally ← Tally.new space
  let pool ← Pool.new (settings.workers + settings.groupSize) tally.words settings.groupSize
  makeRoom .filled settings.queueDepth queuePlaceBytes
  return { files, workers := List.replicate settings.workers .fresh, counting := ⟨pool, tally⟩ }

/-- Runs a pass to its end under a schedule. -/
def run (settings : Settings) (space : Space) (schedule : List Turn) (state : PassState) :
    PassState :=
  let plan := settings.plan space
  (schedule.foldl (·.turn plan) state).finish plan
    (PassState.enoughRounds state.files state.workers.length)

/-- Counts in how many files each n-gram of a space occurs. -/
def count (settings : Settings) (space : Space) (files : List OpenedFile) (schedule : List Turn) :
    Except Failure (Tally × PassTotals) := do
  let final := run settings space schedule (← start settings space files)
  match final.failure? with
  | some failure => .error failure
  | none =>
    match final.counting.close with
    | (_, .error failure) => .error failure
    | (closed, .ok _) => .ok (closed.tally, { final with counting := closed }.totals)

end Pass

end GramCensus
