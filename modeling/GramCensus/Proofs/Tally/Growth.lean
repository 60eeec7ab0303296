import GramCensus.Proofs.Tally.Lanes
import GramCensus.Pool.Flush

/-!
# Growth of a tally

Adding mark sets to a tally adds to every counter the number of sets that have its slot marked, in
the arithmetic of its 32 bits, and fails only by a mark that has no counter (`Tally.addMarks_cases`).
Only words that some set has stored in its extent are looked at, which leaves no mark out where all
sets are tidy.
-/

namespace GramCensus

namespace MarkSet

/-! ## Words of several mark sets -/

/-- Keys that are inserted one after the other are found, and so are the ones from before. -/
private theorem mem_foldl_insert {stored : List (Nat × UInt64)} {seen : Std.TreeMap Nat Unit}
    {i : Nat} :
    i ∈ stored.foldl (fun seen (i, _) => seen.insert i ()) seen ↔
      i ∈ seen ∨ ∃ word, (i, word) ∈ stored := by
  induction stored generalizing seen with
  | nil => simp
  | cons first rest ih =>
    rw [List.foldl_cons, ih, Std.TreeMap.mem_insert, Nat.compare_eq_eq]
    constructor
    · rintro ((rfl | before) | ⟨word, later⟩)
      · exact .inr ⟨first.2, List.mem_cons_self⟩
      · exact .inl before
      · exact .inr ⟨word, List.mem_cons_of_mem _ later⟩
    · rintro (before | ⟨word, member⟩)
      · exact .inl (.inr before)
      · rcases List.mem_cons.1 member with rfl | later
        · exact .inl (.inl rfl)
        · exact .inr ⟨word, later⟩

/-- A word is looked at if some mark set has stored it in its extent. -/
theorem mem_wordsOfAny_iff {sets : List MarkSet} {i : Nat} :
    i ∈ wordsOfAny sets ↔ ∃ marks ∈ sets, ∃ word, (i, word) ∈ marks.extentWords := by
  rw [wordsOfAny, Std.TreeMap.map_fst_toList_eq_keys, Std.TreeMap.mem_keys, ← List.foldl_flatMap,
    mem_foldl_insert]
  constructor
  · rintro (none | ⟨word, member⟩)
    · exact absurd none Std.TreeMap.not_mem_emptyc
    · rcases List.mem_flatMap.1 member with ⟨marks, listed, stored⟩
      exact ⟨marks, listed, word, stored⟩
  · rintro ⟨marks, listed, word, stored⟩
    exact .inr ⟨word, List.mem_flatMap.2 ⟨marks, listed, stored⟩⟩

theorem nodup_wordsOfAny (sets : List MarkSet) : (wordsOfAny sets).Nodup := by
  rw [wordsOfAny, Std.TreeMap.map_fst_toList_eq_keys]
  exact Std.TreeMap.nodup_keys

theorem Tidy.mem_wordsOfAny {sets : List MarkSet} {marks : MarkSet} (tidy : marks.Tidy)
    (member : marks ∈ sets) {i : Nat} (written : marks.word i ≠ 0) : i ∈ wordsOfAny sets :=
  mem_wordsOfAny_iff.2 ⟨marks, member, _, tidy.mem_extentWords written⟩

theorem lt_of_mem_wordsOfAny {sets : List MarkSet} {size : Nat}
    (tidy : ∀ marks ∈ sets, marks.Tidy ∧ marks.size = size) {i : Nat}
    (member : i ∈ wordsOfAny sets) : i < size := by
  rcases mem_wordsOfAny_iff.1 member with ⟨marks, listed, word, stored⟩
  rcases tidy marks listed with ⟨⟨-, inside⟩, sized⟩
  have bounds := (List.mem_filter.1 stored).2
  have below : i < marks.extent.2 := of_decide_eq_true (Bool.and_eq_true_iff.1 bounds).2
  rw [extent] at below
  split at below
  · exact Nat.lt_of_lt_of_le below (sized ▸ inside)
  · exact absurd below (Nat.not_lt_zero i)

end MarkSet

namespace Tally

variable {tally : Tally}

theorem of_new [Memory] {space : Space} (created : new space = .ok tally) : tally = zero space := by
  rw [new] at created
  cases room : Buffer.reserve "counts array" .bits32 ((zero space).words * 64) with
  | error =>
    rw [room] at created
    cases created
  | ok =>
    rw [room] at created
    cases created
    rfl

/-- Two tallies of one space have the same counters. -/
structure Agrees (tally other : Tally) : Prop where
  space_eq : tally.space = other.space
  count_eq (slot : Nat) : tally.count slot = other.count slot

theorem words_congr {other : Tally} (same : tally.space = other.space) :
    tally.words = other.words := by
  rw [words, same, words]

theorem size_congr {other : Tally} (same : tally.space = other.space) : tally.size = other.size := by
  rw [size, words_congr same, size]

/-! ## Adding words -/

theorem add_toUInt32_zero (count : UInt32) : count + (0 : Nat).toUInt32 = count :=
  UInt32.add_zero count

/-- Two numbers may be added to a counter at once. -/
theorem add_toUInt32_add (count : UInt32) (first second : Nat) :
    count + first.toUInt32 + second.toUInt32 = count + (first + second).toUInt32 := by
  rw [UInt32.add_assoc]
  exact congrArg (count + ·) (UInt32.ofNat_add first second).symm

/-- An addition fails only where there are no counters, and only by a bit. -/
theorem addBits_eq_error {word : Nat} {bits : List UInt64} (outside : tally.words ≤ word)
    (some : ∃ entry ∈ bits, entry ≠ 0) :
    tally.addBits word bits = (tally, .error .outOfRange) := by
  have set : ¬ bits.foldl (· ||| ·) 0 = 0 := by
    rw [foldl_or_eq_zero_iff]
    rcases some with ⟨entry, member, differs⟩
    exact fun none => differs (none entry member)
  have room : ¬ word * 64 + 64 ≤ tally.size := by
    rw [size]
    omega
  rw [addBits, if_neg set, if_neg room]

/-- Without bits nothing changes, whether there are counters or not. -/
theorem addBits_of_forall_zero {bits : List UInt64} (none : ∀ entry ∈ bits, entry = 0)
    (word : Nat) : tally.addBits word bits = (tally, .ok ()) := by
  rw [addBits, if_pos ((foldl_or_eq_zero_iff bits).2 none)]

theorem addBits_eq_ok {word : Nat} (inside : word < tally.words) (bits : List UInt64) :
    ∃ grown, tally.addBits word bits = (grown, .ok ()) ∧ grown.space = tally.space ∧
      ∀ slot, grown.count slot =
        tally.count slot + (if slot / 64 = word then votes bits (slot % 64) else 0).toUInt32 := by
  by_cases zero : bits.foldl (· ||| ·) 0 = 0
  · have none := (foldl_or_eq_zero_iff bits).1 zero
    refine ⟨tally, addBits_of_forall_zero none word, rfl, ?_⟩
    intro slot
    rw [votes_eq_zero none, ite_self, add_toUInt32_zero]
  · have room : word * 64 + 64 ≤ tally.size := by
      rw [size]
      omega
    rw [addBits, if_neg zero, if_pos room]
    exact ⟨_, rfl, rfl, getD_addLanes word bits tally.cells⟩

theorem addWord_eq_ok_iff {word : Nat} {bits : List UInt64} {grown : Tally} :
    tally.addWord word bits = .ok grown ↔ tally.addBits word bits = (grown, .ok ()) := by
  rw [addWord]
  split
  case h_1 same added => simp [added]
  case h_2 same failure failed => simp [failed]

/-- Adding words of marks to the counters of a word of the tally. -/
theorem addWord_eq_ok {word : Nat} (inside : word < tally.words) (bits : List UInt64) :
    ∃ grown, tally.addWord word bits = .ok grown ∧ grown.space = tally.space ∧
      ∀ slot, grown.count slot =
        tally.count slot + (if slot / 64 = word then votes bits (slot % 64) else 0).toUInt32 := by
  rcases addBits_eq_ok inside bits with ⟨grown, added, effect⟩
  exact ⟨grown, addWord_eq_ok_iff.2 added, effect⟩

/-- Words without counters that are passed over have no bit. -/
theorem addWord_cases {word : Nat} {bits : List UInt64} {grown : Tally}
    (added : tally.addWord word bits = .ok grown) :
    grown = tally ∧ (∀ entry ∈ bits, entry = 0) ∨ word < tally.words := by
  have added := addWord_eq_ok_iff.1 added
  by_cases none : ∀ entry ∈ bits, entry = 0
  · rw [addBits_of_forall_zero none] at added
    exact .inl ⟨(Prod.mk.inj added).1.symm, none⟩
  · rcases Nat.lt_or_ge word tally.words with inside | outside
    · exact .inr inside
    · rw [addBits_eq_error outside (by simpa using none)] at added
      cases (Prod.mk.inj added).2

/-! ## Adding words of mark sets -/

section Sets

variable {sets : List MarkSet} {positions : List Nat}

/-- Where some mark sets have bits the tally has counters, as far as some positions go. -/
def Covers (tally : Tally) (sets : List MarkSet) (positions : List Nat) : Prop :=
  ∀ i ∈ positions, i < tally.words ∨ ∀ marks ∈ sets, marks.word i = 0

theorem addWord_of_covers {i : Nat} (covered : i < tally.words ∨ ∀ marks ∈ sets, marks.word i = 0) :
    ∃ grown, tally.addWord i (sets.map fun marks => marks.word i) = .ok grown ∧
      grown.space = tally.space ∧
      ∀ slot, grown.count slot = tally.count slot +
        (if slot / 64 = i then sets.countP fun marks => marks.has slot else 0).toUInt32 := by
  have votes_eq : ∀ slot, slot / 64 = i →
      votes (sets.map fun marks => marks.word i) (slot % 64) =
        sets.countP fun marks => marks.has slot := by
    rintro slot rfl
    rw [votes, List.countP_map]
    rfl
  rcases covered with inside | none
  · rcases addWord_eq_ok inside (sets.map fun marks => marks.word i) with
      ⟨grown, added, space, counts⟩
    refine ⟨grown, added, space, ?_⟩
    intro slot
    rw [counts]
    by_cases same : slot / 64 = i
    · rw [if_pos same, if_pos same, votes_eq slot same]
    · rw [if_neg same, if_neg same]
  · have none : ∀ entry ∈ sets.map fun marks => marks.word i, entry = 0 := by simpa using none
    refine ⟨tally, addWord_eq_ok_iff.2 (addBits_of_forall_zero none i), rfl, ?_⟩
    intro slot
    by_cases same : slot / 64 = i
    · rw [if_pos same, ← votes_eq slot same, votes_eq_zero none, add_toUInt32_zero]
    · rw [if_neg same, add_toUInt32_zero]

/-- Words of mark sets are added up to the first one with a bit that has no counter. -/
theorem addEach_cases (tally : Tally) (sets : List MarkSet) (distinct : positions.Nodup) :
    tally.Covers sets positions ∧
        (∃ grown, tally.addEach sets positions = (grown, .ok ()) ∧ grown.space = tally.space ∧
          ∀ slot, grown.count slot = tally.count slot +
            (if slot / 64 ∈ positions then
              sets.countP fun marks => marks.has slot else 0).toUInt32) ∨
      ¬ tally.Covers sets positions ∧
        ∃ after, tally.addEach sets positions = (after, .error .outOfRange) := by
  induction positions generalizing tally with
  | nil =>
    exact .inl ⟨fun _ member => absurd member List.not_mem_nil, tally, rfl, rfl, fun slot => by simp⟩
  | cons i rest ih =>
    rcases List.nodup_cons.1 distinct with ⟨new, distinct⟩
    by_cases covered : i < tally.words ∨ ∀ marks ∈ sets, marks.word i = 0
    · obtain ⟨more, adding, space, added⟩ := addWord_of_covers covered
      -- What is left has the same words to go to.
      have words := words_congr space
      have whole : tally.Covers sets (i :: rest) ↔ more.Covers sets rest := by
        rw [Covers, List.forall_mem_cons, and_iff_right covered, Covers, words]
      rw [whole]
      refine (ih more distinct).imp (And.imp_right ?_) (And.imp_right ?_)
      · rintro ⟨grown, others, sameSpace, counts⟩
        refine ⟨grown, by simp only [addEach, adding, others], sameSpace.trans space, ?_⟩
        -- A slot is in the first word or in one of the others, and never in both.
        intro slot
        rw [counts, added]
        by_cases same : slot / 64 = i
        · rw [if_pos same, if_neg (by rwa [same]), add_toUInt32_zero,
            if_pos (by rw [same]; exact List.mem_cons_self)]
        · have other : slot / 64 ∈ i :: rest ↔ slot / 64 ∈ rest := by simp [same]
          rw [if_neg same, add_toUInt32_zero, if_congr other rfl rfl]
      · rintro ⟨after, failed⟩
        exact ⟨after, by simp only [addEach, adding, failed]⟩
    · refine .inr ⟨fun all => covered (all i List.mem_cons_self), tally, ?_⟩
      have outside : tally.words ≤ i := Nat.le_of_not_lt fun inside => covered (.inl inside)
      have some : ∃ entry ∈ sets.map fun marks => marks.word i, entry ≠ 0 := by
        simpa using fun none => covered (.inr none)
      simp only [addEach, addWord, addBits_eq_error outside some]

end Sets

/-! ## Adding mark sets -/

section Marks

variable {sets : List MarkSet} {positions : List Nat}

theorem covers_iff (complete : ∀ marks ∈ sets, ∀ i, marks.word i ≠ 0 → i ∈ positions) :
    tally.Covers sets positions ↔ ∀ marks ∈ sets, marks.Within tally.size := by
  constructor
  · intro covers marks member mark marked
    have written := MarkSet.word_ne_zero_of_has marked
    rcases covers _ (complete marks member _ written) with inside | none
    · rw [size]
      omega
    · exact absurd (none marks member) written
  · intro within i _
    rcases Nat.lt_or_ge i tally.words with inside | outside
    · exact .inl inside
    · right
      intro marks member
      by_contra written
      rcases MarkSet.exists_has_of_word_ne_zero written with ⟨mark, place, marked⟩
      have below := within marks member mark marked
      rw [size] at below
      omega

/-- Over positions that leave no mark out, mark sets are added whose marks all have counters. -/
theorem addEach_complete (tally : Tally) (distinct : positions.Nodup)
    (complete : ∀ marks ∈ sets, ∀ i, marks.word i ≠ 0 → i ∈ positions) :
    (∀ marks ∈ sets, marks.Within tally.size) ∧
        (∃ grown, tally.addEach sets positions = (grown, .ok ()) ∧ grown.space = tally.space ∧
          ∀ slot, grown.count slot =
            tally.count slot + (sets.countP fun marks => marks.has slot).toUInt32) ∨
      ¬ (∀ marks ∈ sets, marks.Within tally.size) ∧
        ∃ after, tally.addEach sets positions = (after, .error .outOfRange) := by
  rw [← covers_iff complete]
  refine (addEach_cases tally sets distinct).imp_left (And.imp_right ?_)
  rintro ⟨grown, adding, space, counts⟩
  refine ⟨grown, adding, space, ?_⟩
  intro slot
  rw [counts]
  split
  case isTrue => rfl
  case isFalse absent =>
    -- A word that is not looked at has no bit in any of the sets.
    have none : (sets.countP fun marks => marks.has slot) = 0 := by
      apply List.countP_eq_zero.2
      intro marks member marked
      exact absent (complete marks member _ (MarkSet.word_ne_zero_of_has marked))
    rw [none]

/-- Adding mark sets adds to every counter the number of sets that have its slot marked. It fails if
and only if a mark has no counter. -/
theorem addMarks_cases (tally : Tally) (tidy : ∀ marks ∈ sets, marks.Tidy) :
    (∀ marks ∈ sets, marks.Within tally.size) ∧
        (∃ grown, tally.addMarks sets = (grown, .ok ()) ∧ grown.space = tally.space ∧
          ∀ slot, grown.count slot =
            tally.count slot + (sets.countP fun marks => marks.has slot).toUInt32) ∨
      ¬ (∀ marks ∈ sets, marks.Within tally.size) ∧
        ∃ after, tally.addMarks sets = (after, .error .outOfRange) :=
  addEach_complete tally (MarkSet.nodup_wordsOfAny sets) fun _ member _ =>
    (tidy _ member).mem_wordsOfAny member

end Marks

/-- Counters are added to modulo their range. -/
theorem toNat_add_toUInt32 (count : UInt32) (amount : Nat) :
    (count + amount.toUInt32).toNat = (count.toNat + amount) % 2 ^ 32 := by
  rw [UInt32.toNat_add, show amount.toUInt32.toNat = amount % 2 ^ 32 from UInt32.toNat_ofNat']
  omega

end Tally

end GramCensus
