import Std.Data.TreeMap.Basic
import GramCensus.Room

/-!
# Zeroed buffers

A buffer is an array of zeroed cells of one width, with a record of how its memory was had. Only
the cells that were written are stored; all others read as zero. Requests are refused when their
size in bytes does not fit a machine word or reaches the end of memory.
-/

namespace GramCensus

/-- The widths of a cell. -/
inductive CellWidth where
  | bits8
  | bits16
  | bits32
  | bits64
  deriving DecidableEq, Repr

/-- The bytes of a cell. -/
def CellWidth.bytes : CellWidth → Nat
  | .bits8 => 1
  | .bits16 => 2
  | .bits32 => 4
  | .bits64 => 8

/-- The ways to get memory, each tried after the one before it. -/
inductive MemoryStrategy where
  /-- An anonymous mapping. -/
  | mapping
  /-- A block aligned to a large page. -/
  | aligned
  /-- The heap. -/
  | heap
  deriving DecidableEq, Repr

/-- The name of a strategy in reports. -/
def MemoryStrategy.name : MemoryStrategy → String
  | .mapping => "Mmap"
  | .aligned => "Aligned"
  | .heap => "Heap"

/-- An array of cells with the strategy that provided its memory, if it takes any. -/
structure Buffer where
  width : CellWidth
  size : Nat
  strategy : Option MemoryStrategy
  cells : Std.TreeMap Nat Nat

namespace Buffer

/-- The largest number of a machine word. -/
def largestWord : Nat := (1 <<< 64) - 1

variable [Memory]

/-- Whether memory for a number of buffers of the same size can be had, by any of the strategies. A
size that fits no machine word is reported as the largest one. -/
def reserveEach (purpose : String) (buffers : Nat) (width : CellWidth) (size : Nat) :
    Except Failure Unit :=
  let bytes := size * width.bytes
  if largestWord < bytes then .error (.allocation purpose largestWord)
  else if hasRoom .untouched buffers bytes then .ok ()
  else .error (.allocation purpose bytes)

/-- Whether memory for some cells can be had. -/
def reserve (purpose : String) (width : CellWidth) (size : Nat) : Except Failure Unit :=
  reserveEach purpose 1 width size

/-- Zeroed cells from memory that `first`, or else one of the strategies behind it, provides. -/
def ofStrategy (first : MemoryStrategy) (width : CellWidth) (size : Nat) (purpose : String) :
    Except Failure Buffer :=
  (reserve purpose width size).map fun () =>
    { width, size, strategy := if size = 0 then none else some first, cells := ∅ }

/-- Zeroed cells from the first strategy that succeeds. -/
def ofZeros (width : CellWidth) (size : Nat) (purpose : String) : Except Failure Buffer :=
  ofStrategy .mapping width size purpose

/-- The bytes of all cells. -/
def byteSize (buffer : Buffer) : Nat :=
  buffer.size * buffer.width.bytes

/-- The value of a cell. -/
def get (buffer : Buffer) (i : Nat) : Except Failure Nat :=
  if i < buffer.size then .ok (buffer.cells.getD i 0) else .error .outOfRange

/-- Writes a value, cut to the cell's width. -/
def set (buffer : Buffer) (i value : Nat) : Except Failure Buffer :=
  if i < buffer.size then
    .ok { buffer with cells := buffer.cells.insert i (value % (1 <<< (8 * buffer.width.bytes))) }
  else .error .outOfRange

/-- The sum of all cells. -/
def sum (buffer : Buffer) : Nat :=
  buffer.cells.foldl (fun total _ value => total + value) 0

/-- A copy in memory of its own. -/
def copy (buffer : Buffer) (purpose : String) : Except Failure Buffer :=
  (ofZeros buffer.width buffer.size purpose).map fun fresh => { fresh with cells := buffer.cells }

/-- The buffer in one line. -/
def describe (buffer : Buffer) : String :=
  let strategy := match buffer.strategy with
    | none => "None"
    | some found => "Some(" ++ found.name ++ ")"
  "HugeBuffer \x7b len: " ++ toString buffer.size ++ ", strategy: " ++ strategy ++ " \x7d"

end Buffer

end GramCensus
