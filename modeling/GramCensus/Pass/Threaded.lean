import GramCensus.Pool.Threads
import GramCensus.Pass.Basic

/-!
# Passes with threads

A counter that gives its mark set back and flushes, or flushes and leases, does so in one turn of a
pass (`PassState.turn`). Here it sends a thread to the pool instead (`Errand`), which takes one step
in a turn, and everybody else may have turns before the errand is done: flushes overlap, and what one
finds waiting another may have taken. Windows are marked one in a turn. The readers are the same, as
they have no business with the pool. Nobody counts here how often a thread had to wait.
-/

namespace GramCensus

/-- What a counter sends its thread for. -/
inductive Errand where
  /-- To lease a mark set for the file of the next chunk. -/
  | lease
  /-- To flush what waits, as no mark set was free. -/
  | makeWay
  | giveBack (slot : Nat)
  /-- To flush a full group behind a return. -/
  | flush
  deriving DecidableEq, Repr

/-- What the thread is told to do at the pool. -/
def Errand.request (plan : PassPlan) : Errand → PoolRequest
  | .lease => .lease
  | .makeWay => .flush 1
  | .giveBack slot => .giveBack slot
  | .flush => .flush plan.groupSize

/-- A worker with the thread of its counter, and the errand that the thread is on. -/
structure ThreadedWorker where
  worker : Worker
  thread : Thread
  errand : Option Errand
  deriving DecidableEq, Repr

namespace ThreadedWorker

/-- The counter turns to something else. -/
def countAs (own : ThreadedWorker) (counter : Counter) (errand : Option Errand) : ThreadedWorker :=
  { own with worker := { own.worker with counter }, errand }

/-- The counter goes on with what is left of its chunks. -/
def leave (own : ThreadedWorker) (queue : List QueuedChunk) : ThreadedWorker :=
  { own with worker := { own.worker with queue } }

/-- Marks the first window of a chunk, if it has a slot, and leaves the windows behind it. A chunk
without a window is done. -/
def markWindow (shared : SharedPool) (own : ThreadedWorker) (lease : Lease) (chunk : QueuedChunk)
    (rest : List QueuedChunk) : SharedPool × ThreadedWorker :=
  let space := shared.counting.tally.space
  let window := chunk.bytes.take space.gramLength
  if window.length < space.gramLength then (shared, own.leave rest)
  else
    let left := own.leave ({ chunk with bytes := chunk.bytes.tail } :: rest)
    match space.slot? window with
    | .error failure => (shared, own.countAs (.failed failure) none)
    | .ok none => (shared, left)
    | .ok (some bit) =>
      let (after, thread) := own.thread.step shared (.set lease.slot bit)
      (after, { left with
        worker := { left.worker with marked := own.worker.marked + 1 }
        thread })

/-- A turn of a counter whose thread is on no errand: it marks a window, or sends the thread for what
it needs next. -/
def proceed (shared : SharedPool) (own : ThreadedWorker) : SharedPool × ThreadedWorker :=
  match own.worker.counter with
  | .counting lease =>
    match own.worker.queue with
    | chunk :: rest =>
      match lease with
      | none => (shared, { own with errand := some .lease })
      | some held =>
        if held.fileId = chunk.fileId then own.markWindow shared held chunk rest
        else (shared, { own with errand := some (.giveBack held.slot) })
    | [] =>
      if own.worker.reader.isFinished then
        match lease with
        | none => (shared, { own with errand := some .flush })
        | some held => (shared, { own with errand := some (.giveBack held.slot) })
      else (shared, own)
  | _ => (shared, own)

/-- What the counter makes of an errand that is done. -/
def conclude (own : ThreadedWorker) : Errand → ThreadedWorker
  | .lease =>
    match own.thread.leases, own.worker.queue with
    | slot :: _, chunk :: _ => own.countAs (.counting (some ⟨slot, chunk.fileId⟩)) none
    | _, _ => { own with errand := some .makeWay }
  | .makeWay => { own with errand := some .lease }
  | .giveBack _ => own.countAs (.counting none) (some .flush)
  | .flush =>
    if own.worker.queue.isEmpty then own.countAs .done none else { own with errand := none }

/-- A turn of the counter. -/
def countTurn (plan : PassPlan) (shared : SharedPool) (own : ThreadedWorker) :
    SharedPool × ThreadedWorker :=
  match own.errand with
  | none => own.proceed shared
  | some errand =>
    let (after, thread) := own.thread.step shared (errand.request plan)
    let moved := { own with thread }
    (after, if thread.task = .idle then moved.conclude errand else moved)

end ThreadedWorker

/-- A pass with threads under way. -/
structure ThreadedPass where
  files : List OpenedFile
  workers : List ThreadedWorker
  shared : SharedPool

/-- A pass with a thread for every worker. -/
def PassState.threaded (state : PassState) : ThreadedPass where
  files := state.files
  workers := state.workers.map (⟨·, ⟨[], .idle⟩, none⟩)
  shared := ⟨state.counting, [], []⟩

namespace ThreadedPass

variable [Memory]

/-- Gives a turn. -/
def turn (plan : PassPlan) (state : ThreadedPass) (t : Turn) : ThreadedPass :=
  match state.workers[t.worker]? with
  | none => state
  | some own =>
    match t.half with
    | .reader =>
      let (files, worker) := own.worker.readTurn plan state.files
      { state with files, workers := state.workers.set t.worker { own with worker } }
    | .counter =>
      let (shared, after) := own.countTurn plan state.shared
      { state with shared, workers := state.workers.set t.worker after }

/-- Gives turns in the order of a schedule. -/
def run (plan : PassPlan) (schedule : List Turn) (state : ThreadedPass) : ThreadedPass :=
  schedule.foldl (·.turn plan) state

end ThreadedPass

end GramCensus
