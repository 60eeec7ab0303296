import GramCensus.Proofs.Tally.Growth
import GramCensus.Proofs.Tally.Top

/-!
# Exactness of the most frequent n-grams

The most frequent n-grams of a tally are specified by sorting: the slots that were counted more than
once, the larger counters first and equal ones by their slots, cut behind the first `k`
(`Tally.best`). Whatever a tally has grown to, its selection holds the n-grams of these slots, in the
order of the slots and with their counters, and it fails exactly for the first stem none of whose
extensions was ever counted (`Tally.top_exact`).
-/

namespace GramCensus

namespace Tally

variable {tally : Tally} {space : Space} {k : Nat}

/-! ## Tallies that have grown -/

/-- What a new tally of a space becomes by additions of words. -/
inductive Grown (space : Space) : Tally → Prop where
  | zero : Grown space (zero space)
  | addWord {before after : Tally} {word : Nat} {bits : List UInt64} :
      Grown space before → before.addWord word bits = .ok after → Grown space after

/-- The slots of a space fill their words. -/
theorem size_eq_slots (tally : Tally) : tally.size = tally.space.slots := by
  rw [size, words]
  cases tally.space with
  | trigrams => rfl
  | extensions trie =>
    rw [Space.slots]
    omega

namespace Grown

theorem space_eq (grown : Grown space tally) : tally.space = space := by
  induction grown with
  | zero => rfl
  | addWord _ added ih =>
    rcases addWord_cases added with ⟨rfl, -⟩ | inside
    · exact ih
    · rcases addWord_eq_ok inside _ with ⟨after, again, same, -⟩
      rw [added] at again
      rw [Except.ok.inj again, same, ih]

theorem contained (grown : Grown space tally) : tally.Contained := by
  induction grown with
  | zero => exact fun slot _ => Std.TreeMap.getD_emptyc
  | @addWord before after word bits _ added ih =>
    rcases addWord_cases added with ⟨rfl, -⟩ | inside
    · exact ih
    · rcases addWord_eq_ok inside bits with ⟨grown, again, same, counts⟩
      rw [added] at again
      cases again
      intro slot large
      rw [same] at large
      -- A slot behind the last one is in no word of the tally.
      have behind : slot / 64 ≠ word := by
        have size_eq := before.size_eq_slots
        rw [size] at size_eq
        omega
      rw [counts, if_neg behind, ih slot large]
      rfl

end Grown

/-! ## What is to be selected -/

/-- The slots that were counted more than once, ascending. -/
def repeated (tally : Tally) : List Nat :=
  (List.range tally.space.slots).filter fun slot => 1 < tally.count slot

/-- Whether a slot comes before another one: larger counters first, equal ones by their slots. -/
def ahead (tally : Tally) (a b : Nat) : Bool :=
  tally.count b < tally.count a || (tally.count a == tally.count b && a ≤ b)

/-- The first `k` of the slots that were counted more than once. -/
def best (tally : Tally) (k : Nat) : List Nat :=
  (tally.repeated.mergeSort tally.ahead).take k

theorem ahead_iff {a b : Nat} : tally.ahead a b = true ↔
    (tally.count b).toNat < (tally.count a).toNat ∨
      (tally.count a).toNat = (tally.count b).toNat ∧ a ≤ b := by
  simp [ahead, UInt32.lt_iff_toNat_lt, ← UInt32.toNat_inj]

theorem pairwise_ahead (tally : Tally) :
    (tally.repeated.mergeSort tally.ahead).Pairwise fun a b => tally.ahead a b = true := by
  apply List.pairwise_mergeSort
  · intro a b c first second
    rw [ahead_iff] at first second ⊢
    omega
  · intro a b
    rw [Bool.or_eq_true, ahead_iff, ahead_iff]
    omega

theorem length_best (tally : Tally) (k : Nat) :
    (tally.best k).length = min k tally.repeated.length := by
  rw [best, List.length_take, (List.mergeSort_perm _ _).length_eq]

/-- A selection from the slots of a tally takes the best ones. -/
theorem perm_best {slots : List Nat}
    (selection : Selection (fun slot => (tally.count slot).toNat) k
      (List.range tally.space.slots) slots) : slots.Perm (tally.best k) := by
  have twice : tally.repeated =
      (List.range tally.space.slots).filter fun slot => 2 ≤ (tally.count slot).toNat := by
    apply List.filter_congr
    intro slot _
    exact decide_eq_decide.2 UInt32.lt_iff_toNat_lt
  -- The slots are the candidates of the selection, and sorting does not put a slot ahead of an
  -- equal one that stands before it.
  apply selection.perm_take List.nodup_range
  · rw [← twice]
    exact List.mergeSort_perm _ _
  · have sorted := tally.pairwise_ahead
    have different : (tally.repeated.mergeSort tally.ahead).Nodup :=
      (List.mergeSort_perm _ _).nodup_iff.2 (List.nodup_range.filter _)
    refine (sorted.and different).imp fun {a b} both => ?_
    rcases ahead_iff.1 both.1 with more | ⟨same, before⟩
    · exact .inl more
    · refine .inr ⟨same.symm, fun sooner => ?_⟩
      have reversed := (List.pairwise_pair.1 (List.pairwise_lt_range.sublist sooner))
      omega

/-! ## Stems without an extension -/

/-- No extension of the stem with a number was ever counted. -/
def Unseen (tally : Tally) (id : Nat) : Prop :=
  ∀ byte < 256, tally.count (id * 256 + byte) = 0

theorem unseen_iff {id : Nat} : tally.Unseen id ↔
    ((List.range 256).all fun byte => tally.count (id * 256 + byte) == 0) = true := by
  simp [Unseen]

/-- The stem with the smallest number of those that were never counted with another byte. -/
inductive FirstUnseen (tally : Tally) (stem : Bytes) : Prop where
  | intro {trie : RankTrie} {id : Nat} :
      tally.space = .extensions trie → trie.search stem = some id → tally.Unseen id →
        (∀ other < id, ¬ tally.Unseen other) → FirstUnseen tally stem

/-- A trie lists its stems at their numbers. -/
theorem getElem?_stems_iff {trie : RankTrie} {stems : List Bytes} (spans : trie.Over stems)
    {i : Nat} {pair : Nat × Bytes} :
    trie.stems[i]? = some pair ↔ pair.1 = i ∧ trie.search pair.2 = some i := by
  rcases pair with ⟨id, stem⟩
  rw [spans.search_eq_some_iff, spans.stems_eq]
  cases listed : stems[i]? with
  | none => simp [listed]
  | some other => simp [listed, eq_comm]

theorem unseenStem?_extensions {trie : RankTrie} (space_eq : tally.space = .extensions trie) :
    tally.unseenStem? = (trie.stems.find? fun pair =>
      (List.range 256).all fun byte => tally.count (pair.1 * 256 + byte) == 0).map (·.2) := by
  rw [unseenStem?, space_eq]

theorem unseenStem?_eq_some_iff (made : tally.space.Made) {stem : Bytes} :
    tally.unseenStem? = some stem ↔ tally.FirstUnseen stem := by
  cases space_eq : tally.space with
  | trigrams =>
    constructor
    · intro found
      rw [unseenStem?, space_eq] at found
      cases found
    · rintro ⟨extending, -, -, -⟩
      rw [space_eq] at extending
      cases extending
  | extensions trie =>
    rw [space_eq] at made
    rcases made.spans with ⟨stems, spans⟩
    rw [unseenStem?_extensions space_eq]
    -- The first stem in the list of all is the one with the smallest number.
    constructor
    · intro found
      rcases Option.map_eq_some_iff.1 found with ⟨pair, first, rfl⟩
      rcases List.find?_eq_some_iff_getElem.1 first with ⟨zero, i, small, at_i, earlier⟩
      rcases (getElem?_stems_iff spans).1 (List.getElem?_eq_some_iff.2 ⟨small, at_i⟩) with
        ⟨number, searched⟩
      rw [number] at zero
      refine .intro space_eq searched (unseen_iff.2 zero) ?_
      intro other before unseen
      rcases (getElem?_stems_iff spans).1 (List.getElem?_eq_getElem (by omega : other < _)) with
        ⟨same, -⟩
      have counted := earlier other before
      rw [same, unseen_iff.1 unseen] at counted
      cases counted
    · rintro ⟨extending, searched, unseen, earlier⟩
      rw [space_eq] at extending
      cases extending
      rename_i id
      have listed : trie.stems[id]? = some (id, stem) :=
        (getElem?_stems_iff spans).2 ⟨rfl, searched⟩
      rcases List.getElem?_eq_some_iff.1 listed with ⟨small, at_id⟩
      refine Option.map_eq_some_iff.2 ⟨(id, stem), List.find?_eq_some_iff_getElem.2
        ⟨unseen_iff.1 unseen, id, small, at_id, ?_⟩, rfl⟩
      intro other before
      rcases (getElem?_stems_iff spans).1 (List.getElem?_eq_getElem (by omega : other < _)) with
        ⟨same, -⟩
      rw [same, Bool.not_eq_true']
      exact Bool.eq_false_iff.2 fun zero => earlier other before (unseen_iff.2 zero)

/-! ## The selection -/

/-- The entries made of some slots are found at these slots, with the counts. -/
theorem map_materialize (made : space.Made) {chosen : List (Nat × UInt32)}
    (small : ∀ pair ∈ chosen, pair.1 < space.slots) :
    ((materialize space chosen).entries.map fun e => (space.slot? e.gram, e.count)) =
      chosen.map fun pair => (.ok (some pair.1), pair.2) := by
  rw [materialize]
  induction chosen with
  | nil => rfl
  | cons pair rest ih =>
    rcases made.exists_gram? (small pair List.mem_cons_self) with ⟨gram, found, width⟩
    have slot := (made.slot?_eq_some_iff width).2 ⟨small pair List.mem_cons_self, found⟩
    rw [Space.gram?] at found
    have later := ih fun other member => small other (List.mem_cons_of_mem _ member)
    simp only [List.filterMap_cons, found, Option.map_some, List.map_cons, slot]
    exact congrArg _ later

section Selected

variable {chosen : List (Nat × UInt32)}

theorem listed_of_selection
    (selection : Selection (fun pair : Nat × UInt32 => pair.2.toNat) k tally.slotCounts chosen) :
    ∀ pair ∈ chosen, pair.1 < tally.space.slots ∧ pair.2 = tally.count pair.1 := by
  intro pair member
  rcases List.mem_map.1 (selection.sublist.subset member) with ⟨slot, inside, rfl⟩
  exact ⟨List.mem_range.1 inside, rfl⟩

/-- A selection of slots with their counters is one of slots. -/
theorem selection_slots
    (selection : Selection (fun pair : Nat × UInt32 => pair.2.toNat) k tally.slotCounts chosen) :
    Selection (fun slot => (tally.count slot).toNat) k (List.range tally.space.slots)
      (chosen.map (·.1)) := by
  have named : Selection (fun slot => (tally.count slot).toNat) k
      (tally.slotCounts.map (·.1)) (chosen.map (·.1)) := by
    refine selection.map fun pair member => ?_
    rcases List.mem_map.1 member with ⟨slot, -, rfl⟩
    rfl
  have slots_eq : tally.slotCounts.map (·.1) = List.range tally.space.slots := by
    rw [slotCounts, List.map_map]
    exact List.map_id _
  rwa [slots_eq] at named

/-- What is made of a selection is exact. -/
theorem exact_of_selection (made : tally.space.Made)
    (selection : Selection (fun pair : Nat × UInt32 => pair.2.toNat) k tally.slotCounts chosen) :
    (materialize tally.space chosen).size = min k tally.repeated.length ∧
      (∀ e ∈ (materialize tally.space chosen).entries, 1 < e.count) ∧
      (chosen.map (·.1)).Perm (tally.best k) ∧ (chosen.map (·.1)).Pairwise (· < ·) ∧
      ((materialize tally.space chosen).entries.map fun e => (tally.space.slot? e.gram, e.count)) =
        (chosen.map (·.1)).map fun slot => (.ok (some slot), tally.count slot) := by
  have listed := listed_of_selection selection
  have entries := map_materialize made fun pair member => (listed pair member).1
  have counts : (materialize tally.space chosen).entries.map (·.count) = chosen.map (·.2) := by
    have second := congrArg (List.map Prod.snd) entries
    rwa [List.map_map, List.map_map] at second
  have slots := selection_slots selection
  have perm := perm_best slots
  refine ⟨?size, ?repeats, perm, List.pairwise_lt_range.sublist slots.sublist, ?entries⟩
  case size =>
    rw [GramTable.size, ← length_best, ← perm.length_eq, List.length_map]
    simpa using congrArg List.length counts
  case repeats =>
    intro e member
    have held : e.count ∈ chosen.map (·.2) := by
      rw [← counts]
      exact List.mem_map_of_mem member
    rcases List.mem_map.1 held with ⟨pair, taken, same⟩
    rw [← same]
    exact UInt32.lt_iff_toNat_lt.2 (selection.repeated pair taken)
  case entries =>
    rw [entries, List.map_map]
    apply List.map_congr_left
    intro pair taken
    rw [Function.comp_apply, ← (listed pair taken).2]

end Selected

theorem top_error_iff (made : tally.space.Made) (contained : tally.Contained) {failure : Failure} :
    tally.top k = .error failure ↔
      ∃ stem, tally.FirstUnseen stem ∧ failure = .unseenStem stem := by
  rcases tally.top_cases contained k with ⟨chosen, -, fails, succeeds⟩
  cases unseen : tally.unseenStem? with
  | some stem =>
    have first := (unseenStem?_eq_some_iff made).1 unseen
    rw [fails stem unseen, Except.error.injEq]
    constructor
    · rintro rfl
      exact ⟨stem, first, rfl⟩
    · rintro ⟨other, again, rfl⟩
      rw [← unseenStem?_eq_some_iff made, unseen] at again
      rw [Option.some.inj again]
  | none =>
    rw [succeeds unseen]
    constructor
    · intro failed
      cases failed
    · rintro ⟨stem, first, -⟩
      rw [← unseenStem?_eq_some_iff made, unseen] at first
      cases first

/-- The selection of the `k` most frequent n-grams of a tally is exact. It fails for the first stem
that was never counted with another byte, and for no other reason. Otherwise it consists of the `k`
best slots, or of all that were counted more than once, each once and in ascending order, by the
n-grams that have these slots and with the counters that stand there. -/
theorem top_exact (made : space.Made) (grown : Grown space tally) (k : Nat) :
    (∀ failure, tally.top k = .error failure ↔
        ∃ stem, tally.FirstUnseen stem ∧ failure = .unseenStem stem) ∧
      ((∀ stem, ¬ tally.FirstUnseen stem) →
        ∃ (table : GramTable) (slots : List Nat), tally.top k = .ok table ∧
          table.width = space.gramLength ∧ table.size = min k tally.repeated.length ∧
          (∀ e ∈ table.entries, 1 < e.count) ∧
          slots.Perm (tally.best k) ∧ slots.Pairwise (· < ·) ∧
          (table.entries.map fun e => (space.slot? e.gram, e.count)) =
            slots.map fun slot => (.ok (some slot), tally.count slot)) := by
  obtain rfl := grown.space_eq
  refine ⟨fun failure => top_error_iff made grown.contained, ?_⟩
  intro seen
  have none : tally.unseenStem? = none :=
    Option.eq_none_iff_forall_ne_some.2 fun stem unseen =>
      seen stem ((unseenStem?_eq_some_iff made).1 unseen)
  rcases tally.top_cases grown.contained k with ⟨chosen, selection, -, succeeds⟩
  exact ⟨_, chosen.map (·.1), succeeds none, rfl, exact_of_selection made selection⟩

/-- Of two extensions of one stem that were counted twice each, one is selected. -/
theorem top_exact_of_tied_counters :
    ∃ trie tally table, (RankTrie.build ⟨1, [⟨[97], 2⟩], by simp⟩).2 = .ok trie ∧
      (zero (.extensions trie)).addWord 1 [7, 3] = .ok tally ∧ tally.top 1 = .ok table ∧
        table.size = 1 ∧ tally.repeated = [64, 65] := by
  have fits : ∃ trie, (RankTrie.build ⟨1, [⟨[97], 2⟩], by simp⟩).2 = .ok trie := ⟨_, rfl⟩
  rcases fits with ⟨trie, built⟩
  have spans := (RankTrie.built_of_buildWith (Prod.ext rfl built)).spans
  have one : trie.stemCount = 1 := by
    rw [spans.stemCount_eq, List.length_map, (RankTrie.buildWith_perm _ _).length_eq]
    rfl
  obtain ⟨tally, added, space_eq, counts⟩ :=
    @addWord_eq_ok (zero (.extensions trie)) 1 (by simp [words, zero, Space.slots, one]) [7, 3]
  have counts : ∀ slot, tally.count slot =
      (if slot / 64 = 1 then votes [7, 3] (slot % 64) else 0).toUInt32 := by
    intro slot
    rw [counts, show (zero (.extensions trie)).count slot = 0 from Std.TreeMap.getD_emptyc,
      UInt32.zero_add]
  have repeats : tally.repeated = [64, 65] := by
    simp only [repeated, space_eq, zero, Space.slots, one, counts]
    decide +kernel
  have seen : ∀ stem, ¬ tally.FirstUnseen stem := by
    intro stem first
    cases first with
    | @intro other id extending searched unseen earlier =>
      -- The only stem has the number zero, and its first counted extension is that of 64.
      have none : ¬ tally.Unseen 0 := by
        intro zero
        have counted := zero 64 (by decide)
        rw [counts] at counted
        cases counted
      rcases Nat.eq_zero_or_pos id with rfl | positive
      · exact none unseen
      · rw [space_eq] at extending
        cases extending
        have inside := (List.getElem?_eq_some_iff.1 (spans.search_eq_some_iff.1 searched)).1
        rw [← spans.stemCount_eq, one] at inside
        omega
  rcases (top_exact (.extensions built) (.addWord .zero added) 1).2 seen with
    ⟨table, slots, selected, -, size, -⟩
  exact ⟨trie, tally, table, built, added, selected, by rw [size, repeats]; rfl, repeats⟩

end Tally

end GramCensus
