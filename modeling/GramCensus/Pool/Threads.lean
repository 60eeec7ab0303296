import GramCensus.Pool.Flush

/-!
# Threads at a pool

Many threads use one pool at the same time. What a thread does is cut here into steps that no other
thread can interrupt: one exchange or one store of the phase of a slot, one change of a leased mark
set, one word of a group of mark sets added to the tally. Any other thread may take steps of its own
between two of them; a schedule says who takes the next one (`Crew.run`). A flush looks at the slots
one after the other, and what it finds waiting another flush may have taken before.

Next to the pool stands a record of what the threads did to it: the mark sets that were given back
and the words that were added to the tally. No step reads it.
-/

namespace GramCensus

/-- What an idle thread may be told to do. -/
inductive PoolRequest where
  | lease
  | set (i bit : Nat)
  | clear (i : Nat)
  | giveBack (i : Nat)
  | flush (least : Nat)
  deriving DecidableEq, Repr

/-- Where a thread is in what it was told to do. -/
inductive Task where
  | idle
  /-- It looks for a slot that is free and has come to `next`. -/
  | leasing (next : Nat)
  /-- It has seen whether the mark set that it gives back has marks. -/
  | givingBack (i : Nat) (marked : Bool)
  /-- It takes slots that wait into a group and has come to `next`. -/
  | gathering (least next : Nat) (group : List Nat)
  /-- It lets a group go that is too small. -/
  | lettingGo (group : List Nat)
  /-- It adds the mark sets of a group to the tally, with some words still ahead. -/
  | adding (group words : List Nat)
  /-- It clears the mark sets of a group. -/
  | clearing (cleared left : List Nat)
  /-- It frees what is left of a group of `size` slots. -/
  | freeing (size : Nat) (left : List Nat)
  /-- A slot was in another phase than the one that the thread had left it in. -/
  | violated (i : Nat) (expected : SlotPhase) (found : Option SlotPhase)
  | broken (failure : Failure)
  deriving DecidableEq, Repr

/-- A thread with the leases that it has. -/
structure Thread where
  leases : List Nat
  task : Task
  deriving DecidableEq, Repr

/-- A pool and a tally that threads share, with the record of the mark sets that were given back, each
with its slot and the marks it had then, and of the words that were added to the tally, each with the
slot of its mark set and its position. -/
structure SharedPool where
  counting : Counting
  returned : List (Nat × MarkSet)
  added : List (Nat × Nat × UInt64)

namespace SharedPool

def slot? (shared : SharedPool) (i : Nat) : Option Slot :=
  shared.counting.pool.slots[i]?

def phase? (shared : SharedPool) (i : Nat) : Option SlotPhase :=
  (shared.slot? i).map (·.phase)

/-- The mark sets of some slots, with the slots. -/
def setsAt (shared : SharedPool) (group : List Nat) : List (Nat × MarkSet) :=
  group.filterMap fun i => (shared.slot? i).map fun slot => (i, slot.marks)

def changeSlot (shared : SharedPool) (i : Nat) (change : Slot → Slot) : SharedPool :=
  { shared with counting := ⟨shared.counting.pool.changeAt [i] change, shared.counting.tally⟩ }

/-- Moves a slot from one phase to another one. It fails if the slot is in any but the first. -/
def exchange (shared : SharedPool) (i : Nat) (expected desired : SlotPhase) : Option SharedPool :=
  if shared.phase? i = some expected then
    some (shared.changeSlot i fun slot => { slot with phase := desired })
  else none

end SharedPool

namespace Thread

def turnTo (thread : Thread) (task : Task) : Thread :=
  { thread with task }

/-- The first step of what an idle thread is told to do. It can mark, clear and give back what it has
leased, and nothing else; a bit that a mark set does not have is not set. -/
def begin (shared : SharedPool) (thread : Thread) : PoolRequest → SharedPool × Thread
  | .lease => (shared, thread.turnTo (.leasing 0))
  | .set i bit =>
    if i ∈ thread.leases then
      (shared.changeSlot i fun slot =>
        { slot with marks := (slot.marks.set bit).toOption.getD slot.marks }, thread)
    else (shared, thread)
  | .clear i =>
    if i ∈ thread.leases then
      (shared.changeSlot i fun slot => { slot with marks := slot.marks.clear }, thread)
    else (shared, thread)
  | .giveBack i =>
    match shared.slot? i with
    | none => (shared, thread)
    | some slot =>
      if i ∈ thread.leases then (shared, thread.turnTo (.givingBack i slot.marks.hasMarks))
      else (shared, thread)
  | .flush least => (shared, thread.turnTo (.gathering least 0 []))

/-- One step of a thread. The request is for a thread that is idle. -/
def step (shared : SharedPool) (thread : Thread) (request : PoolRequest) : SharedPool × Thread :=
  match thread.task with
  | .idle => thread.begin shared request
  | .leasing next =>
    if shared.counting.pool.size ≤ next then (shared, thread.turnTo .idle)
    else
      match shared.exchange next .free .leased with
      | some after => (after, ⟨next :: thread.leases, .idle⟩)
      | none => (shared, thread.turnTo (.leasing (next + 1)))
  | .givingBack i marked =>
    let after := shared.changeSlot i fun slot =>
      { slot with phase := if marked then .waiting else .free }
    ({ after with returned := shared.returned ++ shared.setsAt [i] }, ⟨thread.leases.erase i, .idle⟩)
  | .gathering least next group =>
    if group.length = shared.counting.pool.groupSize ∨ shared.counting.pool.size ≤ next then
      if group.isEmpty ∨ group.length < least then (shared, thread.turnTo (.lettingGo group))
      else
        let words := MarkSet.wordsOfAny ((shared.setsAt group).map (·.2))
        (shared, thread.turnTo (.adding group words))
    else
      match shared.exchange next .waiting .flushing with
      | some after => (after, thread.turnTo (.gathering least (next + 1) (group ++ [next])))
      | none => (shared, thread.turnTo (.gathering least (next + 1) group))
  | .lettingGo [] => (shared, thread.turnTo .idle)
  | .lettingGo (i :: rest) =>
    match shared.exchange i .flushing .waiting with
    | some after => (after, thread.turnTo (.lettingGo rest))
    | none => (shared, thread.turnTo (.violated i .flushing (shared.phase? i)))
  | .adding group [] => (shared, thread.turnTo (.clearing [] group))
  | .adding group (word :: rest) =>
    let sets := shared.setsAt group
    match shared.counting.tally.addWord word (sets.map fun (_, marks) => marks.word word) with
    | .error failure => (shared, thread.turnTo (.broken failure))
    | .ok grown =>
      ({ shared with
          counting := ⟨shared.counting.pool, grown⟩
          added := shared.added ++ sets.map fun (i, marks) => (i, word, marks.word word) },
        thread.turnTo (.adding group rest))
  | .clearing cleared [] => (shared, thread.turnTo (.freeing cleared.length cleared))
  | .clearing cleared (i :: rest) =>
    (shared.changeSlot i fun slot => { slot with marks := slot.marks.clear },
      thread.turnTo (.clearing (cleared ++ [i]) rest))
  | .freeing size [] =>
    let pool := shared.counting.pool
    let noted := { pool with
      flushes := pool.flushes + 1
      flushedSets := pool.flushedSets + size }
    ({ shared with counting := ⟨noted, shared.counting.tally⟩ }, thread.turnTo .idle)
  | .freeing size (i :: rest) =>
    match shared.exchange i .flushing .free with
    | some after => (after, thread.turnTo (.freeing size rest))
    | none => (shared, thread.turnTo (.violated i .flushing (shared.phase? i)))
  | .violated .. => (shared, thread)
  | .broken _ => (shared, thread)

end Thread

/-- A pool and the threads that use it. -/
structure Crew where
  shared : SharedPool
  threads : List Thread

namespace Crew

/-- A thread takes a step. -/
def turn (crew : Crew) (t : Nat) (request : PoolRequest) : Crew :=
  match crew.threads[t]? with
  | none => crew
  | some thread =>
    let (shared, after) := thread.step crew.shared request
    ⟨shared, crew.threads.set t after⟩

/-- Takes steps in the order of a schedule, which also has what idle threads are told to do. -/
def run (schedule : List (Nat × PoolRequest)) (crew : Crew) : Crew :=
  schedule.foldl (fun crew (t, request) => crew.turn t request) crew

/-- A pool with some threads that have done nothing yet. -/
def opening (pool : Pool) (tally : Tally) (threads : Nat) : Crew :=
  ⟨⟨⟨pool, tally⟩, [], []⟩, List.replicate threads ⟨[], .idle⟩⟩

end Crew

end GramCensus
