import GramCensus.Pool.Basic
import GramCensus.Tally.Basic

/-!
# Flushing mark sets into a tally

A flush adds the marks of a group of waiting mark sets to a tally and frees them
(`Counting.flushGroup`). A counter grows by the number of sets of the group that have its slot
marked. Closing the pool flushes all that waits and then retires it; a slot that is not free by then
is a violation of the protocol.
-/

namespace GramCensus

/-- A pool together with the tally that its marks are counted in. -/
structure Counting where
  pool : Pool
  tally : Tally

namespace MarkSet

/-- The positions of the words that some mark sets have stored in their extents, ascending. -/
def wordsOfAny (sets : List MarkSet) : List Nat :=
  let seen := sets.foldl (fun (seen : Std.TreeMap Nat Unit) marks =>
    marks.extentWords.foldl (fun seen (i, _) => seen.insert i ()) seen) ∅
  seen.toList.map (·.1)

end MarkSet

namespace Tally

/-- Adds words of mark sets, all sets at once, up to the first word that the tally does not have. -/
def addEach (sets : List MarkSet) (tally : Tally) : List Nat → Tally × Except Failure Unit
  | [] => (tally, .ok ())
  | i :: rest =>
    match tally.addWord i (sets.map fun marks => marks.word i) with
    | .error failure => (tally, .error failure)
    | .ok grown => addEach sets grown rest

/-- Adds the marks of some mark sets. -/
def addMarks (tally : Tally) (sets : List MarkSet) : Tally × Except Failure Unit :=
  tally.addEach sets (MarkSet.wordsOfAny sets)

end Tally

namespace Counting

/-! ## Flushing -/

/-- The slots that the next flush takes: the first ones that wait, at most a group. -/
def nextGroup (pool : Pool) : List Nat :=
  (pool.inPhase .waiting).take pool.groupSize

/-- Flushes the next group, unless it is empty or smaller than `least`, and returns its size. If
the tally cannot take the marks, the group stays in the hands of the failed flush. -/
def flushGroup (counting : Counting) (least : Nat) : Counting × Except Failure Nat :=
  let group := nextGroup counting.pool
  if group.isEmpty ∨ group.length < least then (counting, .ok 0)
  else
    let sets := group.filterMap fun i => counting.pool.slots[i]?.map (·.marks)
    let held := counting.pool.changeAt group fun slot => { slot with phase := .flushing }
    match counting.tally.addMarks sets with
    | (tally, .error failure) => (⟨held, tally⟩, .error failure)
    | (tally, .ok ()) =>
      let freed := held.changeAt group fun slot => ⟨.free, slot.marks.clear⟩
      (⟨{ freed with
          flushes := freed.flushes + 1
          flushedSets := freed.flushedSets + group.length }, tally⟩, .ok group.length)

/-- Flushes at most `rounds` groups, until none is left, and returns the number of flushed sets. -/
def flushRounds : (rounds : Nat) → Counting → Counting × Except Failure Nat
  | 0, counting => (counting, .ok 0)
  | rounds + 1, counting =>
    match counting.flushGroup 1 with
    | (after, .error failure) => (after, .error failure)
    | (after, .ok 0) => (after, .ok 0)
    | (after, .ok flushed) =>
      let (final, others) := flushRounds rounds after
      (final, others.map (flushed + ·))

/-! ## Closing -/

/-- Retires slots in order up to the first that is not free; the first of the list stands at
position `i`. -/
def retire : (i : Nat) → List Slot → List Slot × Except Failure Unit
  | _, [] => ([], .ok ())
  | i, slot :: rest =>
    if slot.phase = .free then
      let (retired, result) := retire (i + 1) rest
      ({ slot with phase := .retired } :: retired, result)
    else (slot :: rest, .error (.flushProtocol i slot.phase))

/-- Flushes all mark sets that wait and then retires all slots. Returns the number of flushed
sets. -/
def close (counting : Counting) : Counting × Except Failure Nat :=
  match flushRounds (counting.pool.size + 1) counting with
  | (after, .error failure) => (after, .error failure)
  | (after, .ok flushed) =>
    let (slots, result) := retire 0 after.pool.slots
    (⟨{ after.pool with slots }, after.tally⟩, result.map fun () => flushed)

/-! ## Leasing with the help of a flush -/

/-- Leases a mark set, after a flush if none is free. Where nothing can be flushed either there is
none, and the attempt counts as one that has to wait. -/
def lease (counting : Counting) : Counting × Except Failure (Option Nat) :=
  match counting.pool.lease with
  | some (i, pool) => (⟨pool, counting.tally⟩, .ok (some i))
  | none =>
    match counting.flushGroup 1 with
    | (after, .error failure) => (after, .error failure)
    | (after, .ok _) =>
      match after.pool.lease with
      | some (i, pool) => (⟨pool, after.tally⟩, .ok (some i))
      | none => (⟨{ after.pool with waits := after.pool.waits + 1 }, after.tally⟩, .ok none)

end Counting

end GramCensus
