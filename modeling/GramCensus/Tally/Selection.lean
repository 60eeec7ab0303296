import GramCensus.Tally.Histogram

/-!
# Selections

A selection takes n-grams from a tally by their counts: all above a least count, and of those at
the least count a limited number, in the order of their slots (`Tally.select`). The `k` most
frequent n-grams (`Tally.top`) are such a selection, whose least count comes from the histogram;
n-grams that were seen only once never belong to them.
-/

namespace GramCensus

/-- Takes, from slots with their counts, those above `least` and the first `budget` of those at
`least`, behind the ones already taken, which are listed backwards. -/
def admitOnto (least : UInt32) : (budget : Nat) → (taken slots : List (Nat × UInt32)) →
    List (Nat × UInt32)
  | _, taken, [] => taken.reverse
  | budget, taken, (slot, count) :: rest =>
    if least < count then admitOnto least budget ((slot, count) :: taken) rest
    else if count = least then
      match budget with
      | 0 => admitOnto least 0 taken rest
      | left + 1 => admitOnto least left ((slot, count) :: taken) rest
    else admitOnto least budget taken rest

/-- Takes, from slots with their counts, those above `least` and the first `budget` of those at
`least`. -/
def admitted (least : UInt32) (budget : Nat) (slots : List (Nat × UInt32)) : List (Nat × UInt32) :=
  admitOnto least budget [] slots

namespace Tally

/-! ## Slots that come into question -/

/-- The slots that a selection may take: those with a count, and, where slots without one may be
taken too, enough from the first on to find as many of them as the budget allows. -/
def candidates (tally : Tally) (least : UInt32) (budget : Nat) : List (Nat × UInt32) :=
  let counted := tally.nonzero.filter fun (slot, _) => slot < tally.space.slots
  if least = 0 then
    let reach := min tally.space.slots (budget + counted.length)
    (List.range reach).map (fun slot => (slot, tally.count slot))
      ++ counted.filter fun (slot, _) => reach ≤ slot
  else counted

/-- The first stem, in the order of their numbers, none of whose extensions was ever seen. -/
def unseenStem? (tally : Tally) : Option Bytes :=
  match tally.space with
  | .trigrams => none
  | .extensions trie =>
    (trie.stems.find? fun (id, _) =>
      (List.range 256).all fun byte => tally.count (id * 256 + byte) == 0).map (·.2)

/-! ## Selecting -/

/-- The n-grams of some slots with their counts. -/
def materialize (space : Space) (slots : List (Nat × UInt32)) : GramTable :=
  let stems := space.stems
  { width := space.gramLength
    entries := slots.filterMap fun (slot, count) =>
      (space.gramFrom? stems slot).map fun gram => ⟨gram, count⟩
    uniform := by
      intro e member
      obtain ⟨⟨slot, count⟩, -, found⟩ := List.mem_filterMap.1 member
      obtain ⟨gram, decoded, rfl⟩ := Option.map_eq_some_iff.1 found
      exact Space.length_of_gramFrom?_stems decoded }

/-- All n-grams with a count above `least` and the first `budget` of those with this count, in the
order of their slots. A stem without any extension makes the selection fail, whatever is asked
for. -/
def select (tally : Tally) (least : UInt32) (budget : Nat) : Except Failure GramTable :=
  match tally.unseenStem? with
  | some stem => .error (.unseenStem stem)
  | none => .ok (materialize tally.space (admitted least budget (tally.candidates least budget)))

/-- The `k` most frequent n-grams of those seen more than once. Of n-grams with one count those
with the lower slots are preferred. -/
def top (tally : Tally) (k : Nat) : Except Failure GramTable :=
  let histogram := tally.histogram
  let least := histogram.cutoff histogram.total k
  let budget := if histogram.total < k then 0 else k - histogram.above least
  tally.select least budget

end Tally

end GramCensus
