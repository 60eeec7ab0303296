import GramCensus.GramTable

/-!
# Reports

A report lists the n-grams of a table with their counts as lines of text, most frequent first,
under a heading. The text may go to a sink that takes only so many bytes; `writeUpTo` says what
arrives there.
-/

namespace GramCensus

/-! ## Sinks -/

/-- What a sink has taken of a text, and whether that is all of it. -/
structure Written where
  text : List Char
  complete : Bool
  deriving DecidableEq, Repr

/-- Writes an ASCII text to a sink that takes at most `capacity` bytes in all, or any number. -/
def writeUpTo (capacity : Option Nat) (text : List Char) : Written :=
  match capacity with
  | none => ⟨text, true⟩
  | some most => ⟨text.take most, text.length ≤ most⟩

/-! ## The report of a table -/

namespace GramTable

/-- The heading of a report. -/
def reportHeading : List Char := "ngram,count\n".toList

/-- One line of a report: the n-gram in hexadecimal after `0x`, a comma and the count. -/
def reportLine (e : Entry) : List Char :=
  '0' :: 'x' :: (Bytes.hex e.gram ++ ',' :: (Nat.toDigits 10 e.count.toNat ++ ['\n']))

/-- The report of the `limit` most frequent entries; equal counts stay in order. -/
def report (table : GramTable) (limit : Nat) : List Char :=
  reportHeading ++ (table.ranked.take limit).flatMap reportLine

end GramTable

end GramCensus
