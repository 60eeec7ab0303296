import GramCensus.Pool.Flush
import GramCensus.Corpus

/-!
# Workers of a pass

A worker has two halves that run side by side. Its reader takes files from the corpus and puts
their chunks into a queue; its counter takes the chunks out and marks their n-grams in a mark set of
the pool, a fresh one for every file. A turn of a half is one step of its work, or none where it has
to wait for something. What a counter wants of the pool it gets in one turn here;
`GramCensus.Pass.Threaded` has the turns in which others come between.
-/

namespace GramCensus

/-- A chunk of a file in a queue. -/
structure QueuedChunk where
  fileId : Nat
  bytes : Bytes
  deriving DecidableEq, Repr

/-- What a reader is about. -/
inductive Reader where
  /-- To take the next file. -/
  | idle
  /-- To read a file, whose next chunk begins with `carried` bytes that were in earlier ones. -/
  | reading (fileId : Nat) (chunker : Chunker) (carried : Nat)
  /-- Nothing, there are no more files. -/
  | done
  /-- Nothing, reading broke down. -/
  | broken
  /-- Nothing, no memory is left. -/
  | exhausted
  deriving DecidableEq, Repr

/-- A reader that does nothing any more. -/
def Reader.isFinished : Reader → Bool
  | .done | .broken | .exhausted => true
  | _ => false

/-- A mark set of the pool that is leased for a file. -/
structure Lease where
  slot : Nat
  fileId : Nat
  deriving DecidableEq, Repr

/-- What a counter is about. -/
inductive Counter where
  /-- To count chunks, with the lease for the file of the last one. -/
  | counting (lease : Option Lease)
  /-- Nothing, all chunks are counted. -/
  | done
  | failed (failure : Failure)
  deriving DecidableEq, Repr

/-- A counter that does nothing any more. -/
def Counter.isFinished : Counter → Bool
  | .counting _ => false
  | _ => true

/-- The two halves of a worker with the queue between them, and what they have seen: files taken,
bytes and chunks read, and windows that were in the space. -/
structure Worker where
  reader : Reader
  queue : List QueuedChunk
  counter : Counter
  files : Nat
  bytes : Nat
  chunks : Nat
  marked : Nat
  deriving DecidableEq, Repr

/-- How the chunks of a pass are cut, queued and flushed. -/
structure PassPlan where
  chunkSize : Nat
  overlap : Nat
  queueDepth : Nat
  groupSize : Nat
  deriving DecidableEq, Repr

namespace Worker

/-- A worker at the start of a pass. -/
def fresh : Worker where
  reader := .idle
  queue := []
  counter := .counting none
  files := 0
  bytes := 0
  chunks := 0
  marked := 0

def isFinished (worker : Worker) : Bool :=
  worker.reader.isFinished && worker.counter.isFinished

/-! ## The reader's turns -/

variable [Memory]

/-- Puts the next chunk of a file into the queue. A file that cannot be read any further is given
up, with the bytes behind its last chunk. -/
def readChunk (plan : PassPlan) (worker : Worker) (fileId : Nat) (chunker : Chunker)
    (carried : Nat) : Worker :=
  match chunker.next with
  | (none, _) => { worker with reader := .idle }
  | (some (.failed _), _) => { worker with reader := .idle }
  | (some .broken, _) => { worker with reader := .broken }
  | (some .exhausted, _) => { worker with reader := .exhausted }
  | (some (.bytes bytes), after) =>
    { worker with
      reader := .reading fileId after (min plan.overlap bytes.length)
      queue := worker.queue ++ [⟨fileId, bytes⟩]
      bytes := worker.bytes + (bytes.length - carried)
      chunks := worker.chunks + 1 }

/-- A turn of the reader, with the files that nobody has taken yet. It waits while the queue is
full, and ends when its counter has failed. -/
def readTurn (plan : PassPlan) (files : List OpenedFile) (worker : Worker) :
    List OpenedFile × Worker :=
  match worker.counter, worker.reader with
  | .failed _, .idle | .failed _, .reading .. => (files, { worker with reader := .done })
  | _, .idle =>
    match files with
    | [] => ([], { worker with reader := .done })
    | file :: rest =>
      (rest, { worker with
        reader := .reading file.id (.start file.stream plan.chunkSize plan.overlap) 0
        files := worker.files + 1 })
  | _, .reading fileId chunker carried =>
    if plan.queueDepth ≤ worker.queue.length then (files, worker)
    else (files, worker.readChunk plan fileId chunker carried)
  | _, _ => (files, worker)

/-! ## The counter's turns -/

/-- Gives a leased mark set back and flushes a full group, if there is one. -/
def handBack (plan : PassPlan) (counting : Counting) (lease : Option Lease) :
    Counting × Except Failure Nat :=
  let pool := match lease with
    | none => counting.pool
    | some lease => counting.pool.giveBack lease.slot
  { counting with pool }.flushGroup plan.groupSize

/-- Takes the first chunk of the queue one step further: the mark set of another file is handed
back, a mark set is leased for the chunk's file, or the chunk is marked. -/
def countChunk (plan : PassPlan) (counting : Counting) (worker : Worker) (lease : Option Lease)
    (chunk : QueuedChunk) (rest : List QueuedChunk) : Counting × Worker :=
  match lease with
  | none =>
    match counting.lease with
    | (after, .ok (some slot)) =>
      (after, { worker with counter := .counting (some ⟨slot, chunk.fileId⟩) })
    | (after, .ok none) => (after, worker)
    | (after, .error failure) => (after, { worker with counter := .failed failure })
  | some lease =>
    if lease.fileId = chunk.fileId then
      match Pool.mark counting.tally.space counting.pool lease.slot chunk.bytes with
      | (pool, .ok marked) =>
        ({ counting with pool }, { worker with queue := rest, marked := worker.marked + marked })
      | (pool, .error failure) =>
        ({ counting with pool }, { worker with counter := .failed failure })
    else
      match handBack plan counting (some lease) with
      | (after, .ok _) => (after, { worker with counter := .counting none })
      | (after, .error failure) => (after, { worker with counter := .failed failure })

/-- A turn of the counter. It waits while the queue is empty and the reader still works. -/
def countTurn (plan : PassPlan) (counting : Counting) (worker : Worker) : Counting × Worker :=
  match worker.counter with
  | .counting lease =>
    match worker.queue with
    | chunk :: rest => worker.countChunk plan counting lease chunk rest
    | [] =>
      if worker.reader.isFinished then
        match handBack plan counting lease with
        | (after, .ok _) => (after, { worker with counter := .done })
        | (after, .error failure) => (after, { worker with counter := .failed failure })
      else (counting, worker)
  | _ => (counting, worker)

/-- What made a worker fail. A reader that broke down is named first. A fault makes the counter
break down. -/
def failure? (worker : Worker) : Option Failure :=
  match worker.reader, worker.counter with
  | .broken, _ => some (.workerPanic .reader)
  | .exhausted, _ => some .exhausted
  | _, .failed failure => some (if failure.isFault then .workerPanic .counter else failure)
  | _, _ => none

end Worker

end GramCensus
