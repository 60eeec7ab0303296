import GramCensus.RankTrie.Basic

/-!
# Counted spaces

A space says which n-grams are counted and where: either all n-grams of three bytes, or the
extensions by one byte of the stems of a rank trie. It numbers its n-grams by slots.
-/

namespace GramCensus

/-- The n-grams that a pass counts. -/
inductive Space where
  /-- All n-grams of three bytes, numbered as big-endian numbers. -/
  | trigrams
  /-- All extensions by one byte of the stems of a trie: 256 slots per stem, in the order of the
  stems' numbers. -/
  | extensions (trie : RankTrie)
  deriving DecidableEq, Repr

namespace Space

/-- The number of n-grams of three bytes. -/
def trigramSlots : Nat := 1 <<< 24

/-- The length of the space's n-grams. -/
def gramLength : Space → Nat
  | .trigrams => 3
  | .extensions trie => trie.stemLength + 1

/-- The number of slots. -/
def slots : Space → Nat
  | .trigrams => trigramSlots
  | .extensions trie => trie.stemCount * 256

/-- The trie of the stems, if the space has one. -/
def trie? : Space → Option RankTrie
  | .trigrams => none
  | .extensions trie => some trie

/-- The slot of the n-gram of three bytes. -/
def trigramSlot (a b c : UInt8) : Nat :=
  (a.toNat <<< 16) + (b.toNat <<< 8) + c.toNat

/-- The slot of the n-gram at the start of a window, or `none` if its stem is not in the trie. The
window must reach as far as it is looked at: to its third byte; to the end of the stem; and, where
the stem is in the trie, to the byte behind it. -/
def slot? (space : Space) (window : Bytes) : Except Failure (Option Nat) :=
  match space with
  | .trigrams =>
    match window with
    | a :: b :: c :: _ => .ok (some (trigramSlot a b c))
    | _ => .error .outOfRange
  | .extensions trie =>
    if window.length < trie.stemLength then .error .outOfRange
    else match trie.search (window.take trie.stemLength) with
      | none => .ok none
      | some stem =>
        match window[trie.stemLength]? with
        | some byte => .ok (some (stem * 256 + byte.toNat))
        | none => .error .outOfRange

/-- The n-gram of three bytes that a slot stands for. -/
def trigram (slot : Nat) : Bytes :=
  [(slot >>> 16).toUInt8, (slot >>> 8).toUInt8, slot.toUInt8]

/-- The stems of the space by their numbers. -/
def stems : Space → Array Bytes
  | .trigrams => #[]
  | .extensions trie => (trie.stems.map (·.2)).toArray

/-- The n-gram that a slot stands for, where `stems` are the space's stems. -/
def gramFrom? (space : Space) (stems : Array Bytes) (slot : Nat) : Option Bytes :=
  match space with
  | .trigrams => some (trigram slot)
  | .extensions _ => stems[slot / 256]?.map fun stem => stem ++ [slot.toUInt8]

/-- The n-gram that a slot stands for. -/
def gram? (space : Space) (slot : Nat) : Option Bytes :=
  space.gramFrom? space.stems slot

/-- Every n-gram that a slot stands for has the length of the space's n-grams. -/
theorem length_of_gramFrom?_stems {space : Space} {slot : Nat} {gram : Bytes}
    (found : space.gramFrom? space.stems slot = some gram) : gram.length = space.gramLength := by
  cases space with
  | trigrams => cases found; rfl
  | extensions trie =>
    obtain ⟨stem, listed, rfl⟩ := Option.map_eq_some_iff.1 found
    obtain ⟨id, member⟩ : ∃ id, (id, stem) ∈ trie.stems := by
      simpa [stems] using Array.mem_of_getElem? listed
    simp [gramLength, RankTrie.length_of_mem_stems member]

/-- The space in one line. -/
def describe : Space → String
  | .trigrams => "Fixed"
  | .extensions trie => "Prefixed(" ++ trie.describe ++ ")"

end Space

end GramCensus
