import GramCensus.Buffer
import GramCensus.Sums
import GramCensus.Space

/-!
# Mark sets

A mark set has one bit per slot of a space, in words of 64 bits, and records the range of words
written since it was last cleared. While one file is read, the slots of its n-grams are marked;
a slot is marked or not, however often its n-gram occurs.
-/

namespace GramCensus

/-- Bits in `size` words. Words that were never written are zero and are not stored. The words
from `low` up to `high` are the ones that may have been written since the last clearing; there are
none if `high` is not larger. -/
structure MarkSet where
  size : Nat
  words : Std.TreeMap Nat UInt64
  low : Nat
  high : Nat

/-- Whether a word has a bit set. -/
def wordHas (word : UInt64) (bit : Nat) : Bool :=
  word.toNat.testBit bit

/-- The bits that a word has set, ascending. -/
def wordBits (word : UInt64) : List Nat :=
  (List.range 64).filter (wordHas word)

/-- The word with a bit set as well. -/
def withBit (word : UInt64) (bit : Nat) : UInt64 :=
  word ||| (1 <<< bit.toUInt64)

namespace MarkSet

/-- No bit set. -/
def empty (size : Nat) : MarkSet :=
  ⟨size, ∅, 0, 0⟩

variable [Memory]

/-- A number of clean mark sets, each of its own memory. -/
def newEach (sets size : Nat) : Except Failure (List MarkSet) :=
  (Buffer.reserveEach "bitset" sets .bits64 size).map fun () => List.replicate sets (empty size)

/-- A mark set of its own memory. -/
def new (size : Nat) : Except Failure MarkSet :=
  (Buffer.reserve "bitset" .bits64 size).map fun () => empty size

/-- One word. -/
def word (marks : MarkSet) (i : Nat) : UInt64 :=
  marks.words.getD i 0

/-- Whether any bit was set since the last clearing. -/
def hasMarks (marks : MarkSet) : Bool :=
  marks.low < marks.high

/-- The range of words written since the last clearing, from zero to zero if there are none. -/
def extent (marks : MarkSet) : Nat × Nat :=
  if marks.hasMarks then (marks.low, marks.high) else (0, 0)

/-- Sets a bit. -/
def set (marks : MarkSet) (bit : Nat) : Except Failure MarkSet :=
  let i := bit / 64
  if i < marks.size then
    .ok {
      size := marks.size
      words := marks.words.insert i (withBit (marks.word i) (bit % 64))
      low := if marks.hasMarks then min marks.low i else i
      high := if marks.hasMarks then max marks.high (i + 1) else i + 1 }
  else .error .outOfRange

/-- Whether a bit is set. -/
def contains (marks : MarkSet) (bit : Nat) : Except Failure Bool :=
  if bit / 64 < marks.size then .ok (wordHas (marks.word (bit / 64)) (bit % 64))
  else .error .outOfRange

/-- The stored words of the extent, ascending. -/
def extentWords (marks : MarkSet) : List (Nat × UInt64) :=
  marks.words.toList.filter fun (i, _) => marks.extent.1 ≤ i && i < marks.extent.2

/-- The bits set in the extent, ascending. -/
def bits (marks : MarkSet) : List Nat :=
  marks.extentWords.flatMap fun (i, word) => (wordBits word).map fun bit => i * 64 + bit

/-- The number of bits set in the extent. -/
def ones (marks : MarkSet) : Nat :=
  sumOf (marks.extentWords.map fun (_, word) => (wordBits word).length)

/-- All words. -/
def wordList (marks : MarkSet) : List UInt64 :=
  (List.range marks.size).map marks.word

/-- Makes the words of the extent zero. -/
def clear (marks : MarkSet) : MarkSet where
  size := marks.size
  words := marks.words.filter fun i _ => !(marks.extent.1 ≤ i && i < marks.extent.2)
  low := 0
  high := 0

/-- The mark set in one line. -/
def describe (marks : MarkSet) : String :=
  "Bitset \x7b words: " ++ toString marks.size ++ ", touched: " ++ toString marks.extent.1
    ++ ".." ++ toString marks.extent.2 ++ " \x7d"

/-! ## Marking -/

/-- Marks the slots of the windows of `width` bytes that start in the rest of a chunk, `marked` of
which were found before. -/
def markFrom (space : Space) (width : Nat) (marked : Nat) (marks : MarkSet) :
    Bytes → MarkSet × Except Failure Nat
  | [] => (marks, .ok marked)
  | byte :: rest =>
    let window := (byte :: rest).take width
    if window.length < width then (marks, .ok marked)
    else match space.slot? window with
      | .error failure => (marks, .error failure)
      | .ok none => markFrom space width marked marks rest
      | .ok (some slot) =>
        match marks.set slot with
        | .error failure => (marks, .error failure)
        | .ok more => markFrom space width (marked + 1) more rest

/-- Marks the slots of all n-grams of a chunk, and counts how many of its windows, repeated ones
included, are in the space. Where a slot has no bit, the marks made before it stay. -/
def mark (space : Space) (marks : MarkSet) (chunk : Bytes) : MarkSet × Except Failure Nat :=
  markFrom space space.gramLength 0 marks chunk

end MarkSet

end GramCensus
