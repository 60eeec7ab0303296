import GramCensus.MarkSet

/-!
# Tallies

A tally holds a 32-bit counter for every slot of a space. Counters grow by words of mark sets: one
call adds, to each of 64 neighbouring counters, the number of given words that have its bit set. The
bits of the words are counted in lanes first (`Lanes.ofWords`), and then every lane is added to the
counter of its bit (`Tally.addLanes`). Only counters that were changed are stored; `count` reads any
of them.
-/

namespace GramCensus

/-! ## Lanes -/

/-- Numbers for the 64 bits of a word, in four groups of sixteen lanes, low bits first. -/
abbrev Lanes := Vector (Vector UInt32 16) 4

namespace Lanes

def zero : Lanes :=
  Vector.replicate 4 (Vector.replicate 16 0)

/-- The lane of a bit: the one at place `l` of group `g`. -/
def lane (lanes : Lanes) (g : Fin 4) (l : Fin 16) : UInt32 :=
  lanes[g][l]

/-- Adds the sixteen bits of a group to its lanes. -/
def countBits (bits : UInt16) (group : Vector UInt32 16) : Vector UInt32 16 :=
  group.mapIdx fun l lane => lane + ((bits >>> l.toUInt16) &&& 1).toUInt32

/-- Adds the bits of a word to the lanes. -/
def countWord (lanes : Lanes) (word : UInt64) : Lanes :=
  if word = 0 then lanes
  else lanes.mapIdx fun g group => countBits (word >>> (g * 16).toUInt64).toUInt16 group

/-- How many of some words have each bit set. -/
def ofWords (words : List UInt64) : Lanes :=
  words.foldl countWord zero

end Lanes

/-- The counters of a space. -/
structure Tally where
  space : Space
  cells : Std.TreeMap Nat UInt32

namespace Tally

/-- All counters zero. -/
def zero (space : Space) : Tally :=
  ⟨space, ∅⟩

/-- The number of words of 64 counters that cover the space. -/
def words (tally : Tally) : Nat :=
  (tally.space.slots + 63) / 64

/-- Counters of their own memory, all zero. -/
def new [Memory] (space : Space) : Except Failure Tally :=
  (Buffer.reserve "counts array" .bits32 ((zero space).words * 64)).map fun () => zero space

/-- The number of counters. -/
def size (tally : Tally) : Nat :=
  tally.words * 64

/-- A counter; zero past the last one. -/
def count (tally : Tally) (slot : Nat) : UInt32 :=
  tally.cells.getD slot 0

/-! ## Counting -/

/-- Adds to a counter. -/
def addTo (cells : Std.TreeMap Nat UInt32) (slot : Nat) (amount : UInt32) :
    Std.TreeMap Nat UInt32 :=
  if amount = 0 then cells else cells.insert slot (cells.getD slot 0 + amount)

/-- Adds the lanes of a group to the counters from `first` on. -/
def addGroup (first : Nat) (lane : Fin 16 → UInt32) (cells : Std.TreeMap Nat UInt32) :
    Std.TreeMap Nat UInt32 :=
  (List.finRange 16).foldl (fun cells l => addTo cells (first + l.val) (lane l)) cells

/-- Adds all lanes to the counters from `first` on. -/
def addLanes (first : Nat) (lanes : Lanes) (cells : Std.TreeMap Nat UInt32) :
    Std.TreeMap Nat UInt32 :=
  (List.finRange 4).foldl (fun cells g => addGroup (first + g.val * 16) (lanes.lane g) cells) cells

/-- Adds to each of the 64 counters of a word the number of the given words that have its bit set.
Words without any bit change nothing, wherever they belong; others need counters. -/
def addBits (tally : Tally) (word : Nat) (bits : List UInt64) : Tally × Except Failure Unit :=
  if bits.foldl (· ||| ·) 0 = 0 then (tally, .ok ())
  else if word * 64 + 64 ≤ tally.size then
    ({ tally with cells := addLanes (word * 64) (Lanes.ofWords bits) tally.cells }, .ok ())
  else (tally, .error .outOfRange)

/-- The tally after an addition that succeeds. -/
def addWord (tally : Tally) (word : Nat) (bits : List UInt64) : Except Failure Tally :=
  match tally.addBits word bits with
  | (grown, .ok ()) => .ok grown
  | (_, .error failure) => .error failure

/-! ## Reading -/

/-- A counter. -/
def get (tally : Tally) (slot : Nat) : Except Failure UInt32 :=
  if slot < tally.size then .ok (tally.count slot) else .error .outOfRange

/-- The number of counters that share a lock. -/
def regionSize : Nat := 128

/-- The number of regions of counters that share a lock; the last one may be smaller. -/
def regions (tally : Tally) : Nat :=
  (tally.words + 1) / 2

/-- The slots from `start` up to `stop` with their counters. -/
def between (tally : Tally) (start stop : Nat) : List (Nat × UInt32) :=
  (List.range (stop - start)).map fun i => (start + i, tally.count (start + i))

/-- The slots from `start` up to `stop` cut at the borders of regions, in at most `rounds`
pieces. -/
def pieces : (rounds start stop : Nat) → List (Nat × Nat)
  | 0, _, _ => []
  | rounds + 1, start, stop =>
    if stop ≤ start then []
    else
      let border := min ((start / regionSize + 1) * regionSize) stop
      (start, border) :: pieces rounds border stop

/-- The counters of `length` neighbouring slots, read one region after the other. -/
def range (tally : Tally) (start length : Nat) : Except Failure (List UInt32) :=
  if start + length ≤ tally.size then
    .ok ((pieces length start (start + length)).flatMap fun (first, border) =>
      (tally.between first border).map (·.2))
  else .error .outOfRange

/-- All slots with their counters, read one region after the other. -/
def toList (tally : Tally) : List (Nat × UInt32) :=
  (List.range tally.regions).flatMap fun region =>
    tally.between (region * regionSize) (min ((region + 1) * regionSize) tally.size)

/-- The slots whose counter is not zero, in order. -/
def nonzero (tally : Tally) : List (Nat × UInt32) :=
  tally.cells.toList.filter fun (_, c) => c ≠ 0

/-- The largest counter. -/
def largest (tally : Tally) : UInt32 :=
  tally.nonzero.foldl (fun largest (_, c) => max largest c) 0

/-- The tally in one line. -/
def describe (tally : Tally) : String :=
  "CountsArray \x7b space: " ++ tally.space.describe ++ ", len: " ++ toString tally.size
    ++ ", locks: " ++ toString tally.regions ++ " \x7d"

end Tally

end GramCensus
