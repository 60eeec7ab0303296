import Mathlib.Data.Finset.Card
import Mathlib.Data.List.DropRight
import Mathlib.Order.Bounds.Basic
import GramCensus.Proofs.MarkSet.Chunks

/-!
# The extent of a mark set

Only the words of the extent are looked at when marks are counted or cleared, so the extent has to be
right after any setting and clearing of bits. It is: whatever happened to a mark set, its marks are the
bits that were set since the last clearing (`MarkSet.bitsSince`), and its extent reaches from the first
word with one of them to the last (`MarkSet.run_records`).

The same extent comes of two ends that only ever move apart, the lower one from behind all words and the
upper one from zero (`MarkSet.widen`): it does not matter how a range is told apart from none.
-/

namespace GramCensus

/-- A change of a mark set. -/
inductive MarkChange where
  | set (bit : Nat)
  | clear
  deriving DecidableEq

/-- The bit that a change is to set. -/
def MarkChange.bit? : MarkChange → Option Nat
  | .set bit => some bit
  | .clear => none

namespace MarkSet

variable {marks : MarkSet} {size : Nat} {bits : List Nat}

/-! ## Histories -/

/-- Makes a change. Setting a bit behind the last word fails, and leaves all words as they are. -/
def perform (marks : MarkSet) : MarkChange → MarkSet
  | .set bit => (marks.set bit).toOption.getD marks
  | .clear => marks.clear

/-- Makes changes one after the other. -/
def run (marks : MarkSet) (changes : List MarkChange) : MarkSet :=
  changes.foldl perform marks

/-- The bits that were set since the last clearing, as often as they were set. A bit behind the last
of `size` words was never set. -/
def bitsSince (size : Nat) (changes : List MarkChange) : List Nat :=
  ((changes.rtakeWhile fun change => change ≠ .clear).filterMap MarkChange.bit?).filter
    fun bit => bit / 64 < size

theorem bitsSince_clear (size : Nat) (changes : List MarkChange) :
    bitsSince size (changes ++ [.clear]) = [] := by
  rw [bitsSince, List.rtakeWhile_concat_neg _ _ _ (by simp)]
  rfl

theorem bitsSince_set (size : Nat) (changes : List MarkChange) (bit : Nat) :
    bitsSince size (changes ++ [.set bit]) =
      bitsSince size changes ++ if bit / 64 < size then [bit] else [] := by
  rw [bitsSince, List.rtakeWhile_concat_pos _ _ _ (by simp), List.filterMap_append,
    List.filter_append, bitsSince]
  congr 1
  by_cases inside : bit / 64 < size <;> simp [MarkChange.bit?, inside]

example : bitsSince 16 [.set 3, .clear, .set 70, .set 70, .set 1024, .set 900] = [70, 70, 900] := by
  decide

/-! ## Ranges of words -/

/-- The words in which some bits lie. -/
def wordsOf (bits : List Nat) : Set Nat :=
  { i | ∃ bit ∈ bits, bit / 64 = i }

theorem wordsOf_singleton (bit : Nat) : wordsOf [bit] = {bit / 64} := by
  ext i
  simp [wordsOf, eq_comm]

theorem wordsOf_append (bits more : List Nat) :
    wordsOf (bits ++ more) = wordsOf bits ∪ wordsOf more := by
  ext i
  constructor
  · rintro ⟨bit, member, place⟩
    exact (List.mem_append.1 member).imp (⟨bit, ·, place⟩) (⟨bit, ·, place⟩)
  · rintro (⟨bit, first, place⟩ | ⟨bit, second, place⟩)
    · exact ⟨bit, List.mem_append_left _ first, place⟩
    · exact ⟨bit, List.mem_append_right _ second, place⟩

/-- A range goes from the first word with one of some bits to behind the last one. -/
def Reaches (bits : List Nat) (range : Nat × Nat) : Prop :=
  ∃ first last, IsLeast (wordsOf bits) first ∧ IsGreatest (wordsOf bits) last ∧
    range = (first, last + 1)

/-- A range, widened by the word of a bit. -/
def widen (range : Nat × Nat) (bit : Nat) : Nat × Nat :=
  (min range.1 (bit / 64), max range.2 (bit / 64 + 1))

theorem reaches_singleton (bit : Nat) : Reaches [bit] (bit / 64, bit / 64 + 1) := by
  refine ⟨bit / 64, bit / 64, ?_, ?_, rfl⟩
  · simp [wordsOf_singleton]
  · simp [wordsOf_singleton]

namespace Reaches

variable {range other : Nat × Nat}

theorem widen (reaches : Reaches bits range) (bit : Nat) :
    Reaches (bits ++ [bit]) (widen range bit) := by
  rcases reaches with ⟨first, last, least, greatest, rfl⟩
  rw [Reaches, wordsOf_append, wordsOf_singleton]
  exact ⟨_, _, least.union isLeast_singleton, greatest.union isGreatest_singleton,
    Prod.ext rfl (Nat.add_max_add_right last (bit / 64) 1)⟩

theorem unique (reaches : Reaches bits range) (reaches' : Reaches bits other) : range = other := by
  rcases reaches with ⟨first, last, least, greatest, rfl⟩
  rcases reaches' with ⟨first', last', least', greatest', rfl⟩
  rw [least.unique least', greatest.unique greatest']

end Reaches

/-- Where the lower end starts does not matter, if it is behind all words, because the first bit already
moves both ends to its word. -/
theorem reaches_foldl_widen {top : Nat} (some : bits ≠ []) (below : ∀ bit ∈ bits, bit / 64 ≤ top) :
    Reaches bits (bits.foldl widen (top, 0)) := by
  induction bits using List.reverseRecOn with
  | nil => exact absurd rfl some
  | append_singleton bits bit ih =>
    rw [List.foldl_concat]
    by_cases first : bits = []
    · subst first
      have start : widen (top, 0) bit = (bit / 64, bit / 64 + 1) := by
        simp [widen, below bit (by simp)]
      simpa [start] using reaches_singleton bit
    · exact (ih first fun other member => below other (List.mem_append_left _ member)).widen bit

/-! ## What a change does -/

/-- The range that is kept starts with the first word, and is widened from then on. -/
theorem range_of_set {bit : Nat} {after : MarkSet} (setting : marks.set bit = .ok after) :
    (after.low, after.high) =
      if marks.hasMarks then widen (marks.low, marks.high) bit else (bit / 64, bit / 64 + 1) := by
  rw [set] at setting
  split at setting
  case isTrue =>
    cases setting
    cases marks.hasMarks <;> rfl
  case isFalse => cases setting

theorem set_eq_error {bit : Nat} (outside : marks.size ≤ bit / 64) :
    marks.set bit = .error .outOfRange :=
  if_neg (Nat.not_lt.2 outside)

theorem perform_set_outside {bit : Nat} (outside : marks.size ≤ bit / 64) :
    marks.perform (.set bit) = marks := by
  rw [perform, set_eq_error outside]
  rfl

/-- A mark set holds some bits, and its range of words is the one that they reach over. -/
structure Spans (size : Nat) (bits : List Nat) (marks : MarkSet) : Prop where
  size_eq : marks.size = size
  tidy : marks.Tidy
  has_iff : ∀ slot, marks.has slot = true ↔ slot ∈ bits
  hasMarks_iff : marks.hasMarks = true ↔ bits ≠ []
  reaches : bits ≠ [] → Reaches bits (marks.low, marks.high)

theorem spans_empty (size : Nat) : Spans size [] (empty size) where
  size_eq := rfl
  tidy := tidy_empty size
  has_iff slot := by simp [has, word_empty, wordHas_zero]
  hasMarks_iff := by simp [hasMarks, empty]
  reaches some := absurd rfl some

namespace Spans

theorem clear (spans : Spans size bits marks) : Spans size [] marks.clear where
  size_eq := spans.size_eq
  tidy := spans.tidy.clear
  has_iff slot := by simp [has, spans.tidy.word_clear, wordHas_zero]
  hasMarks_iff := by simp [hasMarks, MarkSet.clear]
  reaches some := absurd rfl some

theorem set (spans : Spans size bits marks) {bit : Nat} (inside : bit / 64 < size) :
    ∃ after, marks.set bit = .ok after ∧ Spans size (bits ++ [bit]) after := by
  have fits : bit / 64 < marks.size := by rwa [spans.size_eq]
  rcases set_eq_ok fits with ⟨after, setting, sameSize, has, tidy⟩
  have range := range_of_set setting
  refine ⟨after, setting, sameSize.trans spans.size_eq, tidy spans.tidy, fun slot => ?_, ?_, fun _ => ?_⟩
  · rw [has, Bool.or_eq_true, spans.has_iff, decide_eq_true_iff, List.mem_append,
      List.mem_singleton, @eq_comm _ bit]
  · simp [hasMarks_of_set setting]
  · -- Whether there were marks before is whether there were bits.
    by_cases some : bits = []
    · subst some
      have clean : ¬ marks.hasMarks = true := by simp [spans.hasMarks_iff]
      rw [if_neg clean] at range
      simpa [range] using reaches_singleton bit
    · rw [if_pos (spans.hasMarks_iff.2 some)] at range
      simpa [range] using (spans.reaches some).widen bit

end Spans

/-- A clean mark set spans no bits, and what each change does to the bits it does to those that are
spanned. -/
theorem spans_run (size : Nat) (changes : List MarkChange) :
    Spans size (bitsSince size changes) ((empty size).run changes) := by
  induction changes using List.reverseRecOn with
  | nil => exact spans_empty size
  | append_singleton changes change ih =>
    rw [run, List.foldl_concat, ← run]
    cases change with
    | clear =>
      rw [bitsSince_clear]
      exact ih.clear
    | set bit =>
      rw [bitsSince_set]
      by_cases inside : bit / 64 < size
      · rcases ih.set inside with ⟨after, setting, spans⟩
        rw [if_pos inside, perform, setting]
        exact spans
      · have outside : ((empty size).run changes).size ≤ bit / 64 := by
          simpa [ih.size_eq] using inside
        simpa [perform_set_outside outside, inside] using ih

/-! ## What the extent says -/

/-- A mark set records some bits in words of which only the extent was written. -/
structure Records (size : Nat) (bits : List Nat) (marks : MarkSet) : Prop where
  contains_eq : ∀ bit, marks.contains bit =
    if bit / 64 < size then .ok (decide (bit ∈ bits)) else .error .outOfRange
  /-- No word outside the extent has a bit. -/
  covered : ∀ i word, marks.wordList[i]? = some word → word ≠ 0 →
    marks.extent.1 ≤ i ∧ i < marks.extent.2
  extent_clean : bits = [] → marks.extent = (0, 0)
  /-- The extent begins with the first word that was written and ends behind the last one. -/
  extent_reaches : bits ≠ [] → Reaches bits marks.extent
  /-- Ends that start behind all words and at zero say the same. -/
  widened : ∀ top, size ≤ top →
    marks.hasMarks = decide ((bits.foldl widen (top, 0)).1 < (bits.foldl widen (top, 0)).2) ∧
    (marks.hasMarks = true → marks.extent = bits.foldl widen (top, 0))
  hasMarks_iff : marks.hasMarks = true ↔ ∃ bit, marks.contains bit = .ok true
  /-- However often a bit was set, it is counted once. -/
  ones_eq : marks.ones = bits.toFinset.card
  clear_eq : marks.clear.wordList = List.replicate size 0
  refused : ∀ bit, size ≤ bit / 64 →
    marks.set bit = .error .outOfRange ∧ marks.perform (.set bit) = marks

namespace Spans

theorem extent_eq (spans : Spans size bits marks) (some : bits ≠ []) :
    marks.extent = (marks.low, marks.high) :=
  if_pos (spans.hasMarks_iff.2 some)

theorem inside (spans : Spans size bits marks) {bit : Nat} (member : bit ∈ bits) :
    bit / 64 < size := by
  have bounds := spans.tidy.covered _ (word_ne_zero_of_has ((spans.has_iff bit).2 member))
  exact Nat.lt_of_lt_of_le bounds.2 (spans.size_eq ▸ spans.tidy.inside)

theorem widened (spans : Spans size bits marks) {top : Nat} (behind : size ≤ top) :
    marks.hasMarks = decide ((bits.foldl widen (top, 0)).1 < (bits.foldl widen (top, 0)).2) ∧
      (marks.hasMarks = true → marks.extent = bits.foldl widen (top, 0)) := by
  by_cases some : bits = []
  · subst some
    have clean : ¬ marks.hasMarks = true := by simp [spans.hasMarks_iff]
    exact ⟨by simpa using clean, fun dirty => absurd dirty clean⟩
  · have below : ∀ bit ∈ bits, bit / 64 ≤ top := fun bit member =>
      Nat.le_trans (Nat.le_of_lt (spans.inside member)) behind
    -- Both ranges reach over the same bits.
    rw [(reaches_foldl_widen some below).unique (spans.reaches some)]
    exact ⟨rfl, fun _ => spans.extent_eq some⟩

/-- The bits that are listed are the ones that were set, each once. -/
theorem ones_eq (spans : Spans size bits marks) : marks.ones = bits.toFinset.card := by
  have distinct : marks.bits.Nodup := marks.pairwise_bits.imp Nat.ne_of_lt
  have same : marks.bits.toFinset = bits.toFinset := by
    ext bit
    rw [List.mem_toFinset, List.mem_toFinset, spans.tidy.mem_bits_iff, spans.has_iff]
  calc marks.ones
      = marks.bits.length := marks.ones_eq_length_bits
    _ = marks.bits.toFinset.card := (List.toFinset_card_of_nodup distinct).symm
    _ = bits.toFinset.card := congrArg Finset.card same

theorem contains_eq (spans : Spans size bits marks) (bit : Nat) :
    marks.contains bit =
      if bit / 64 < size then .ok (decide (bit ∈ bits)) else .error .outOfRange := by
  have found : marks.has bit = decide (bit ∈ bits) := by
    rw [Bool.eq_iff_iff, spans.has_iff, decide_eq_true_iff]
  rw [contains, spans.size_eq, ← found]
  rfl

/-- Marks that span some bits record them. -/
theorem records (spans : Spans size bits marks) : Records size bits marks where
  contains_eq := spans.contains_eq
  covered := by
    intro i word stored written
    have held : marks.word i ≠ 0 := by
      rcases List.getElem?_eq_some_iff.1 stored with ⟨_, rfl⟩
      simpa [wordList] using written
    have bounds := spans.tidy.covered i held
    -- A word with a bit shows that some bit was set, so that there is an extent at all.
    rcases exists_has_of_word_ne_zero held with ⟨bit, -, set⟩
    rwa [spans.extent_eq (List.ne_nil_of_mem ((spans.has_iff bit).1 set))]
  extent_clean := by
    rintro rfl
    exact if_neg (by simp [spans.hasMarks_iff])
  extent_reaches some := by simpa [spans.extent_eq some] using spans.reaches some
  widened top behind := spans.widened behind
  hasMarks_iff := by
    have found : ∀ bit, marks.contains bit = .ok true ↔ bit ∈ bits := fun bit =>
      spans.tidy.mem_marked_iff.trans (spans.has_iff bit)
    simp only [found, spans.hasMarks_iff]
    constructor
    · exact List.exists_mem_of_ne_nil bits
    · rintro ⟨bit, member⟩
      exact List.ne_nil_of_mem member
  ones_eq := spans.ones_eq
  clear_eq := by
    refine List.eq_replicate_iff.2 ⟨by simp [wordList, MarkSet.clear, spans.size_eq], ?_⟩
    intro word listed
    rcases List.mem_map.1 listed with ⟨i, -, rfl⟩
    exact spans.tidy.word_clear i
  refused bit outside := by
    have behind : marks.size ≤ bit / 64 := by rwa [spans.size_eq]
    exact ⟨set_eq_error behind, perform_set_outside behind⟩

end Spans

/-- After any changes of a clean mark set, it records the bits that were set since the last clearing. A
bit is found if it is one of them. Words outside the extent are zero; the extent reaches from the first
word with one of the bits to the last, and is empty without them. There are marks if any bit is found.
The bits are counted without repetition, clearing leaves no word with a bit, and setting a bit behind
the last word changes nothing. -/
theorem run_records (size : Nat) (changes : List MarkChange) :
    Records size (bitsSince size changes) ((empty size).run changes) :=
  (spans_run size changes).records

example : ((empty 16).run [.set 70, .set 70, .set 1024, .set 900]).extent = (1, 15) := by
  decide

end MarkSet

end GramCensus
