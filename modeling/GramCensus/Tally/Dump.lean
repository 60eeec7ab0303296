import GramCensus.GramTable.Report
import GramCensus.Tally.Basic

/-!
# Dumps of tallies

A dump lists every counter of a tally on a line of its own, the slot in hexadecimal and the count
in decimal. A dump of all n-grams of three bytes has `2 ^ 24` lines, so what is asked of a dump most
often, its beginning (`dumpUpTo`) and its sizes (`dumpSummary`), is computed without the whole text.
-/

namespace GramCensus
namespace Tally

/-! ## Lines -/

/-- The hexadecimal digits of a slot, at least six. -/
def slotDigits (slot : Nat) : List Char :=
  let digits := Nat.toDigits 16 slot
  List.replicate (6 - digits.length) '0' ++ digits

/-- The line of a counter without its end. -/
def dumpEntry (slot : Nat) (count : UInt32) : List Char :=
  '0' :: 'x' :: (slotDigits slot ++ ',' :: ' ' :: Nat.toDigits 10 count.toNat)

/-- The lines of the first `slots` counters. -/
def dumpLines (tally : Tally) (slots : Nat) : List Char :=
  (List.range slots).flatMap fun slot => dumpEntry slot (tally.count slot) ++ ['\n']

/-- The whole dump. -/
def dump (tally : Tally) : List Char :=
  tally.dumpLines tally.space.slots

/-- The fewest characters of a line. -/
def shortestLine : Nat := 12

/-- What a sink takes of a dump. The lines behind the capacity are not looked at. -/
def dumpUpTo (tally : Tally) (capacity : Nat) : Written :=
  writeUpTo (some capacity)
    (tally.dumpLines (min tally.space.slots (capacity / shortestLine + 1)))

/-! ## Sizes -/

/-- The sizes of a dump, its lines of counters above zero, and its last line, without ends of
lines. -/
structure DumpSummary where
  bytes : Nat
  lines : Nat
  nonzero : List (List Char)
  last : Option (List Char)
  deriving DecidableEq, Repr

/-- The number of hexadecimal digits of all slots below `slots`: six each, and one more from every
power of sixteen on that has more. -/
def slotDigitCount (slots : Nat) : Nat :=
  6 * slots + sumOf ((List.range 10).map fun power => slots - 1 <<< (4 * (power + 6)))

/-- The sizes of a dump. Apart from its slot and its count a line has five characters, and a count
of zero has one digit. -/
def dumpSummary (tally : Tally) : DumpSummary :=
  let slots := tally.space.slots
  let counted := tally.nonzero.filter fun (slot, _) => slot < slots
  { bytes := slotDigitCount slots + 6 * slots
      + sumOf (counted.map fun (_, count) => (Nat.toDigits 10 count.toNat).length - 1)
    lines := slots
    nonzero := counted.map fun (slot, count) => dumpEntry slot count
    last := if slots = 0 then none else some (dumpEntry (slots - 1) (tally.count (slots - 1))) }

end Tally
end GramCensus
