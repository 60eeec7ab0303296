import Mathlib.Data.Set.Basic
import GramCensus.Proofs.MarkSet.Marks
import GramCensus.Proofs.Sums

/-!
# Marking chunks one after another

Whatever was done to a mark set before, its marked slots are the bits of its extent
(`MarkSet.Tidy.mem_bits_iff`). Marking a chunk adds the slots of the chunk's windows to them, so
marking several chunks adds the slots of all their windows (`Space.slotsIn`), in whatever order and
however often the chunks are marked. Main statement: `MarkSet.markAll_adds_slotsIn`.
-/

namespace GramCensus

/-! ## Slots of chunks -/

namespace Space

variable {space : Space} {chunks : List Bytes}

/-- The slots of the windows of some chunks. -/
def slotsIn (space : Space) (chunks : List Bytes) : Set Nat :=
  { slot | ∃ chunk ∈ chunks, ∃ window ∈ Bytes.windows space.gramLength chunk,
    space.slot? window = .ok (some slot) }

theorem mem_slotsIn_iff {slot : Nat} :
    slot ∈ space.slotsIn chunks ↔ chunks.any (space.shows slot) = true := by
  rw [List.any_eq_true]
  simp only [shows_eq_true_iff]
  rfl

/-- The windows of a chunk are its parts of their length. -/
theorem mem_slotsIn_iff_part {slot : Nat} :
    slot ∈ space.slotsIn chunks ↔ ∃ gram, gram.length = space.gramLength ∧
      (∃ chunk ∈ chunks, gram <:+: chunk) ∧ space.slot? gram = .ok (some slot) := by
  constructor
  · rintro ⟨chunk, listed, gram, member, numbered⟩
    rcases (Bytes.mem_windows_iff space.gramLength_pos).1 member with ⟨width, inside⟩
    exact ⟨gram, width, ⟨chunk, listed, inside⟩, numbered⟩
  · rintro ⟨gram, width, ⟨chunk, listed, inside⟩, numbered⟩
    have member := (Bytes.mem_windows_iff space.gramLength_pos).2 ⟨width, inside⟩
    exact ⟨chunk, listed, gram, member, numbered⟩

/-- A slot of some chunks is the slot of an n-gram in one of them and of no other n-gram. -/
theorem Made.exists_gram_of_mem_slotsIn (made : space.Made) {slot : Nat}
    (shown : slot ∈ space.slotsIn chunks) :
    slot < space.slots ∧ ∃ gram, gram.length = space.gramLength ∧
      (∃ chunk ∈ chunks, gram <:+: chunk) ∧ space.slot? gram = .ok (some slot) ∧
      ∀ other, other.length = space.gramLength → space.slot? other = .ok (some slot) →
        other = gram := by
  rcases mem_slotsIn_iff_part.1 shown with ⟨gram, width, inside, numbered⟩
  rcases (made.slot?_eq_some_iff width).1 numbered with ⟨small, stands⟩
  refine ⟨small, gram, width, inside, numbered, ?_⟩
  intro other otherWidth otherNumbered
  have otherStands := ((made.slot?_eq_some_iff otherWidth).1 otherNumbered).2
  exact Option.some.inj (otherStands.symm.trans stands)

/-- In a space of extensions a slot is made of the number of a stem and a byte. -/
theorem slotsIn_extensions (trie : RankTrie) (chunks : List Bytes) :
    (extensions trie).slotsIn chunks =
      { slot | ∃ stem byte id, trie.search stem = some id ∧ stem.length = trie.stemLength ∧
        (∃ chunk ∈ chunks, stem ++ [byte] <:+: chunk) ∧ slot = 256 * id + byte.toNat } := by
  ext slot
  rw [mem_slotsIn_iff_part]
  constructor
  · rintro ⟨gram, width, inside, numbered⟩
    rcases exists_eq_append_singleton width with ⟨stem, byte, rfl, length⟩
    rw [slot?_extensions byte length] at numbered
    rcases Option.map_eq_some_iff.1 (Except.ok.inj numbered) with ⟨id, searched, rfl⟩
    exact ⟨stem, byte, id, searched, length, inside, by rw [Nat.mul_comm]⟩
  · rintro ⟨stem, byte, id, searched, length, inside, rfl⟩
    refine ⟨stem ++ [byte], by simp [gramLength, length], inside, ?_⟩
    rw [slot?_extensions byte length, searched, Option.map_some, Nat.mul_comm]

end Space

namespace MarkSet

variable {marks : MarkSet}

/-! ## Reading marks off -/

/-- The bits of a mark set that are found set. -/
def marked (marks : MarkSet) : Set Nat :=
  { bit | marks.contains bit = .ok true }

theorem contains_eq_ok {bit : Nat} (inside : bit < marks.size * 64) :
    marks.contains bit = .ok (marks.has bit) :=
  if_pos (by omega)

theorem Tidy.mem_marked_iff (tidy : marks.Tidy) {bit : Nat} :
    bit ∈ marks.marked ↔ marks.has bit = true := by
  constructor
  · intro found
    by_cases inside : bit < marks.size * 64
    · exact Except.ok.inj ((contains_eq_ok inside).symm.trans found)
    · have outside : ¬ bit / 64 < marks.size := by omega
      simp [marked, contains, outside] at found
  · intro set
    exact (contains_eq_ok (tidy.within_of_le tidy.inside bit set)).trans (congrArg _ set)

/-- Mark sets with the same bits have the same words. -/
theorem word_eq_of_has_eq {other : MarkSet} (same : ∀ slot, marks.has slot = other.has slot)
    (i : Nat) : marks.word i = other.word i := by
  apply UInt64.toNat_inj.1
  apply Nat.eq_of_testBit_eq
  intro bit
  by_cases small : bit < 64
  · calc wordHas (marks.word i) bit
        = marks.has (i * 64 + bit) := (marks.has_mul_add i small).symm
      _ = other.has (i * 64 + bit) := same _
      _ = wordHas (other.word i) bit := other.has_mul_add i small
  · have large := Nat.le_of_not_lt small
    exact (wordHas_of_le _ large).trans (wordHas_of_le _ large).symm

theorem wordList_eq_of_has_eq {other : MarkSet} (size_eq : marks.size = other.size)
    (same : ∀ slot, marks.has slot = other.has slot) : marks.wordList = other.wordList := by
  rw [wordList, wordList, size_eq]
  exact List.map_congr_left fun i _ => word_eq_of_has_eq same i

/-! ## Listing marks -/

theorem mem_wordBits_iff {word : UInt64} {bit : Nat} :
    bit ∈ wordBits word ↔ bit < 64 ∧ wordHas word bit = true := by
  rw [wordBits, List.mem_filter, List.mem_range]

theorem mem_bits_iff {bit : Nat} :
    bit ∈ marks.bits ↔
      ∃ word, (bit / 64, word) ∈ marks.extentWords ∧ wordHas word (bit % 64) = true := by
  rw [bits, List.mem_flatMap]
  constructor
  · rintro ⟨⟨i, word⟩, stored, listed⟩
    rcases List.mem_map.1 listed with ⟨low, member, rfl⟩
    rcases mem_wordBits_iff.1 member with ⟨small, set⟩
    rw [show (i * 64 + low) / 64 = i by omega, show (i * 64 + low) % 64 = low by omega]
    exact ⟨word, stored, set⟩
  · rintro ⟨word, stored, set⟩
    refine ⟨(bit / 64, word), stored, List.mem_map.2 ⟨bit % 64, ?_, by omega⟩⟩
    exact mem_wordBits_iff.2 ⟨by omega, set⟩

/-- The bits of the extent are all bits, because no other word has any. -/
theorem Tidy.mem_bits_iff (tidy : marks.Tidy) {bit : Nat} :
    bit ∈ marks.bits ↔ marks.has bit = true := by
  rw [MarkSet.mem_bits_iff]
  constructor
  · rintro ⟨word, stored, set⟩
    rwa [has, word_eq_of_mem_extentWords stored]
  · intro set
    exact ⟨_, tidy.mem_extentWords (word_ne_zero_of_has set), set⟩

theorem pairwise_extentWords (marks : MarkSet) :
    marks.extentWords.Pairwise fun a b => a.1 < b.1 := by
  have ordered : marks.words.toList.Pairwise fun a b => a.1 < b.1 := by
    simpa only [Nat.compare_eq_lt] using @Std.TreeMap.ordered_keys_toList _ _ _ marks.words _
  exact ordered.filter _

theorem pairwise_bits (marks : MarkSet) : marks.bits.Pairwise (· < ·) := by
  rw [bits, List.pairwise_flatMap]
  constructor
  · intro place _
    refine (List.pairwise_lt_range.filter _).map _ fun a b before => ?_
    omega
  · refine marks.pairwise_extentWords.imp fun {a b} before first inFirst second inSecond => ?_
    rcases List.mem_map.1 inFirst with ⟨low, member, rfl⟩
    rcases List.mem_map.1 inSecond with ⟨low', member', rfl⟩
    have small := (mem_wordBits_iff.1 member).1
    omega

theorem ones_eq_length_bits (marks : MarkSet) : marks.ones = marks.bits.length := by
  rw [ones, bits, List.length_flatMap, sumOf_eq_sum]
  simp only [List.length_map]

/-! ## Mark sets in use -/

/-- What a clean mark set becomes by setting bits, clearing, and marking chunks in any spaces. -/
inductive Reached : MarkSet → Prop where
  | empty (size : Nat) : Reached (empty size)
  | set {marks after : MarkSet} {bit : Nat} :
      Reached marks → marks.set bit = .ok after → Reached after
  | clear {marks : MarkSet} : Reached marks → Reached marks.clear
  | mark {marks : MarkSet} (space : Space) (chunk : Bytes) :
      Reached marks → Reached (marks.mark space chunk).1

theorem Reached.tidy (reached : marks.Reached) : marks.Tidy := by
  induction reached with
  | empty size => exact tidy_empty size
  | set _ setting ih => exact (shape_of_set setting).2 ih
  | clear _ ih => exact ih.clear
  | mark space chunk _ ih => exact (shape_markFrom space space.gramLength 0 chunk).2 ih

/-! ## Several chunks -/

/-- Marks chunks one after another, each with what its call returns. -/
def markAll (space : Space) (marks : MarkSet) : List Bytes → MarkSet × List (Except Failure Nat)
  | [] => (marks, [])
  | chunk :: rest =>
    let (after, count) := marks.mark space chunk
    let (last, counts) := markAll space after rest
    (last, count :: counts)

section

variable {space : Space} (made : space.Made) (fits : space.slots ≤ marks.size * 64)

include made fits

/-- Every chunk adds the slots that show in it. -/
theorem markAll_eq_ok (chunks : List Bytes) :
    ∃ after, markAll space marks chunks = (after, chunks.map fun chunk => .ok (space.hits chunk)) ∧
      after.size = marks.size ∧
      (∀ slot, after.has slot = (marks.has slot || chunks.any (space.shows slot))) ∧
      (marks.Tidy → after.Tidy) := by
  induction chunks generalizing marks with
  | nil => exact ⟨marks, rfl, rfl, fun slot => (Bool.or_false _).symm, id⟩
  | cons chunk rest ih =>
    rcases mark_shows made fits chunk with ⟨more, marking, sameSize, shown, moreTidy⟩
    rcases ih (by rwa [sameSize]) with ⟨after, run, size, has, tidy⟩
    refine ⟨after, by simp only [markAll, marking, run, List.map_cons], size.trans sameSize, ?_,
      fun before => tidy (moreTidy before)⟩
    intro slot
    calc after.has slot
        = (more.has slot || rest.any (space.shows slot)) := has slot
      _ = (marks.has slot || space.shows slot chunk || rest.any (space.shows slot)) :=
          congrArg (· || _) (shown (.slot slot))
      _ = (marks.has slot || (chunk :: rest).any (space.shows slot)) := by
          rw [Bool.or_assoc, List.any_cons]

theorem markAll_perm {chunks others : List Bytes} (perm : others.Perm chunks) :
    (markAll space marks others).1.wordList = (markAll space marks chunks).1.wordList := by
  rcases markAll_eq_ok made fits chunks with ⟨after, run, size, has, -⟩
  rcases markAll_eq_ok made fits others with ⟨after', run', size', has', -⟩
  rw [run, run']
  refine wordList_eq_of_has_eq (size'.trans size.symm) fun slot => ?_
  rw [has, has', perm.any_eq]

/-- Chunks that were marked before add nothing. -/
theorem markAll_again {chunks again : List Bytes} (known : again ⊆ chunks) :
    (markAll space (markAll space marks chunks).1 again).1.wordList =
      (markAll space marks chunks).1.wordList := by
  rcases markAll_eq_ok made fits chunks with ⟨after, run, size, has, -⟩
  have stillFits : space.slots ≤ after.size * 64 := by rwa [size]
  rcases markAll_eq_ok made stillFits again with ⟨after', run', size', has', -⟩
  rw [run, run']
  refine wordList_eq_of_has_eq size' fun slot => ?_
  rw [has', Bool.or_eq_left_iff_imp]
  -- What shows in a chunk that is marked again is marked since the first time.
  intro shown
  rcases List.any_eq_true.1 shown with ⟨chunk, listed, shows⟩
  have before : chunks.any (space.shows slot) = true :=
    List.any_eq_true.2 ⟨chunk, known listed, shows⟩
  rw [has, before, Bool.or_true]

/-- Into a mark set in any state with a bit for every slot, chunks are marked without failures. Every
call returns the number of windows of its chunk that are in the space, which is zero for a chunk that
is too short for one. The slots of the windows are added to the marked slots and nothing else; the
bits of the extent are still the marked slots, ascending, and counted as such. Neither the order of
the chunks nor marking some of them again makes a difference to the words. Every added slot lies in
the space and belongs to one n-gram only; in a space of extensions it is made of the number of the
n-gram's stem and its last byte. -/
theorem markAll_adds_slotsIn (reached : marks.Reached) (chunks : List Bytes) :
    (∃ after, markAll space marks chunks = (after, chunks.map fun chunk => .ok (space.hits chunk)) ∧
      after.size = marks.size ∧
      after.marked = marks.marked ∪ space.slotsIn chunks ∧
      (∀ bit, bit ∈ after.bits ↔ bit ∈ after.marked) ∧ after.bits.Pairwise (· < ·) ∧
      after.ones = after.bits.length ∧
      (∀ others, others.Perm chunks →
        (markAll space marks others).1.wordList = after.wordList) ∧
      ∀ again, again ⊆ chunks → (markAll space after again).1.wordList = after.wordList) ∧
    (∀ chunk, chunk.length < space.gramLength → space.hits chunk = 0) ∧
    (∀ slot ∈ space.slotsIn chunks, slot < space.slots ∧ ∃ gram, gram.length = space.gramLength ∧
      (∃ chunk ∈ chunks, gram <:+: chunk) ∧ space.slot? gram = .ok (some slot) ∧
      ∀ other, other.length = space.gramLength → space.slot? other = .ok (some slot) →
        other = gram) ∧
    ∀ trie, space = .extensions trie → space.slotsIn chunks =
      { slot | ∃ stem byte id, trie.search stem = some id ∧ stem.length = trie.stemLength ∧
        (∃ chunk ∈ chunks, stem ++ [byte] <:+: chunk) ∧ slot = 256 * id + byte.toNat } := by
  refine ⟨?_, fun chunk short => Space.hits_eq_zero short,
    fun slot shown => made.exists_gram_of_mem_slotsIn shown, ?_⟩
  · rcases markAll_eq_ok made fits chunks with ⟨after, run, size, has, tidyAfter⟩
    have tidy := tidyAfter reached.tidy
    refine ⟨after, run, size, ?_, fun bit => tidy.mem_bits_iff.trans tidy.mem_marked_iff.symm,
      after.pairwise_bits, after.ones_eq_length_bits, ?_, ?_⟩
    · ext slot
      rw [Set.mem_union, tidy.mem_marked_iff, reached.tidy.mem_marked_iff, Space.mem_slotsIn_iff, has,
        Bool.or_eq_true]
    · intro others perm
      rw [markAll_perm made fits perm, run]
    · intro again known
      have same := markAll_again made fits known
      rwa [run] at same
  · rintro trie rfl
    exact Space.slotsIn_extensions trie chunks

end

/-- A chunk in which an n-gram of three bytes occurs twice, and one that is too short. -/
theorem markAll_adds_slotsIn_of_trigrams :
    Space.Made .trigrams ∧ Space.trigrams.slots ≤ (empty (2 ^ 18)).size * 64 ∧
      (empty (2 ^ 18)).Reached ∧
      ∃ after, markAll .trigrams (empty (2 ^ 18)) [[97, 98, 99, 97, 98, 99], [97, 98]] =
          (after, [.ok 4, .ok 0]) ∧
        ∀ bit, bit ∈ after.bits ↔ bit = 0x616263 ∨ bit = 0x626361 ∨ bit = 0x636162 := by
  have fits : Space.trigrams.slots ≤ (empty (2 ^ 18)).size * 64 := by decide
  refine ⟨.trigrams, fits, .empty _, ?_⟩
  rcases (markAll_adds_slotsIn .trigrams fits (.empty _) [[97, 98, 99, 97, 98, 99], [97, 98]]).1 with
    ⟨after, run, -, marked, listed, -⟩
  refine ⟨after, run, ?_⟩
  intro bit
  have none : bit ∉ (empty (2 ^ 18)).marked := by
    rw [(tidy_empty _).mem_marked_iff, has, word_empty, wordHas_zero]
    exact Bool.false_ne_true
  have windows : Bytes.windows 3 [97, 98, 99, 97, 98, 99] =
      [[97, 98, 99], [98, 99, 97], [99, 97, 98], [97, 98, 99]] := by decide
  have short : Bytes.windows 3 [97, 98] = [] := by decide
  rw [listed, marked, Set.mem_union, or_iff_right none, Space.mem_slotsIn_iff]
  simp only [List.any_cons, List.any_nil, Space.shows, Space.gramLength, windows, short, Space.slot?,
    Space.trigramSlot, UInt8.reduceToNat, Nat.reduceShiftLeft, Nat.reduceAdd, Except.ok.injEq,
    Option.some.injEq, Bool.or_false, Bool.or_self, Bool.or_eq_true, decide_eq_true_eq]
  omega

end MarkSet

end GramCensus
