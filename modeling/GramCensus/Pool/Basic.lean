import GramCensus.MarkSet

/-!
# Pools of mark sets

A pool lends mark sets. A slot of the pool is free, leased, waiting to be counted, being counted, or
retired (`SlotPhase`), and only the holder of a lease changes its marks. A lease is named by the
position of its slot. Given back with marks, a set waits for a flush; given back clean, it is free
at once.
-/

namespace GramCensus

/-- A mark set of a pool and the phase it is in. -/
structure Slot where
  phase : SlotPhase
  marks : MarkSet

/-- Mark sets that are lent out and counted in groups of at most `groupSize`, with the numbers of
flushes so far, of sets counted by them, and of attempts to get a set that had to wait. -/
structure Pool where
  slots : List Slot
  groupSize : Nat
  flushes : Nat
  flushedSets : Nat
  waits : Nat

namespace Pool

/-- A pool of clean mark sets of `words` words each. -/
def new [Memory] (slots words groupSize : Nat) : Except Failure Pool :=
  if groupSize = 0 ∨ largestGroup < groupSize then .error (.settings (.poolGroupSize groupSize))
  else if slots = 0 then .error (.settings .emptyPool)
  else (MarkSet.newEach slots words).map fun fresh =>
    { slots := fresh.map (⟨.free, ·⟩)
      groupSize, flushes := 0, flushedSets := 0, waits := 0 }

/-- The number of mark sets. -/
def size (pool : Pool) : Nat :=
  pool.slots.length

/-- Puts a slot in the place of another. -/
def put (pool : Pool) (i : Nat) (slot : Slot) : Pool :=
  { pool with slots := pool.slots.set i slot }

/-- Changes some slots. -/
def changeAt (pool : Pool) (group : List Nat) (change : Slot → Slot) : Pool :=
  { pool with slots := pool.slots.mapIdx fun i slot => if i ∈ group then change slot else slot }

/-- The positions of the slots in a phase, ascending. -/
def inPhase (pool : Pool) (phase : SlotPhase) : List Nat :=
  pool.slots.zipIdx.filterMap fun (slot, i) => if slot.phase = phase then some i else none

/-! ## Leases -/

/-- Leases the first free mark set. -/
def lease (pool : Pool) : Option (Nat × Pool) :=
  match pool.slots.findIdx? fun slot => slot.phase = .free with
  | none => none
  | some i => some (i, pool.changeAt [i] fun slot => { slot with phase := .leased })

/-- The marks of a leased slot. -/
def leased? (pool : Pool) (i : Nat) : Option MarkSet :=
  match pool.slots[i]? with
  | some ⟨.leased, marks⟩ => some marks
  | _ => none

/-- Sets a bit of a leased mark set. -/
def set (pool : Pool) (i bit : Nat) : Except Failure Pool :=
  match pool.leased? i with
  | none => .error .outOfRange
  | some marks => (marks.set bit).map fun changed => pool.put i ⟨.leased, changed⟩

/-- Marks the n-grams of a chunk in a leased mark set, and counts its windows in the space. -/
def mark (space : Space) (pool : Pool) (i : Nat) (chunk : Bytes) : Pool × Except Failure Nat :=
  match pool.leased? i with
  | none => (pool, .error .outOfRange)
  | some marks =>
    let (changed, result) := marks.mark space chunk
    (pool.put i ⟨.leased, changed⟩, result)

/-- Removes all marks of a leased mark set. -/
def clear (pool : Pool) (i : Nat) : Pool :=
  match pool.leased? i with
  | none => pool
  | some marks => pool.put i ⟨.leased, marks.clear⟩

/-- Gives a leased mark set back. -/
def giveBack (pool : Pool) (i : Nat) : Pool :=
  match pool.leased? i with
  | none => pool
  | some marks => pool.put i ⟨if marks.hasMarks then .waiting else .free, marks⟩

end Pool

end GramCensus
