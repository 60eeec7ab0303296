import Mathlib.Data.List.TakeWhile
import GramCensus.Proofs.Space.Grams
import GramCensus.Proofs.Tally.Admission
import GramCensus.Proofs.Tally.Reading

/-!
# Selecting on a walk

A selection can be made on one walk over all counters: by their indices, one region after the other,
or, in a space of extensions, stem by stem through the trie, 256 neighbouring counters for each
(`Tally.walk`). The walk offers every n-gram of the space once, in the order of the slots and with
the counter of its slot (`Tally.offers`), and takes it by its count while the budget lasts. It finds
the same n-grams as the selection, and it fails where the selection does (`Tally.walk_eq`).
-/

namespace GramCensus

/-! ## Drafts -/

/-- What a walk has taken so far, and how many of the n-grams at the least count it may still
take. -/
structure Draft where
  budget : Nat
  taken : List Entry

/-- Takes an n-gram that is above the least count, or at it while the budget lasts. -/
def Draft.offer (least : UInt32) (draft : Draft) (offered : Entry) : Draft :=
  if least < offered.count then ⟨draft.budget, draft.taken ++ [offered]⟩
  else if offered.count = least ∧ 0 < draft.budget then
    ⟨draft.budget - 1, draft.taken ++ [offered]⟩
  else draft

/-- Offering n-grams one after the other takes those that are admitted. -/
theorem Admits.taken_foldl_offer {least : UInt32} {budget : Nat}
    {slots admitted : List (Nat × UInt32)} (admits : Admits least budget slots admitted)
    (name : Nat → Bytes) (taken : List Entry) :
    ((slots.map fun slot => Entry.mk (name slot.1) slot.2).foldl (Draft.offer least)
        ⟨budget, taken⟩).taken =
      taken ++ admitted.map fun slot => Entry.mk (name slot.1) slot.2 := by
  induction admits generalizing taken with
  | nil => exact (List.append_nil taken).symm
  | larger above _ ih =>
    rw [List.map_cons, List.foldl_cons, Draft.offer, if_pos above, ih, List.map_cons,
      List.append_assoc]
    rfl
  | spent same _ ih =>
    have notLarger : ¬ least < _ := fun above => UInt32.ne_of_lt above same.symm
    rw [List.map_cons, List.foldl_cons, Draft.offer, if_neg notLarger, if_neg (by simp), ih]
  | tied same _ ih =>
    have notLarger : ¬ least < _ := fun above => UInt32.ne_of_lt above same.symm
    rw [List.map_cons, List.foldl_cons, Draft.offer, if_neg notLarger,
      if_pos ⟨same, Nat.succ_pos _⟩, Nat.add_sub_cancel, ih, List.map_cons, List.append_assoc]
    rfl
  | smaller below _ ih =>
    have notLarger : ¬ least < _ := UInt32.lt_asymm below
    rw [List.map_cons, List.foldl_cons, Draft.offer, if_neg notLarger,
      if_neg fun both => UInt32.ne_of_lt below both.1, ih]

namespace Tally

variable {tally : Tally} {least : UInt32} {budget : Nat}

/-! ## Walks -/

/-- Offers all n-grams of three bytes by the indices of the counters. -/
def walkSlots (tally : Tally) (least : UInt32) (draft : Draft) : Draft :=
  ((tally.toList.takeWhile fun slot => slot.1 < Space.trigramSlots).map fun slot =>
    Entry.mk (Space.trigram slot.1) slot.2).foldl (Draft.offer least) draft

/-- Offers the extensions of some stems with the counters that belong to the stem's number. A stem
all of whose counters are zero ends the walk. -/
def walkStems (tally : Tally) (least : UInt32) :
    (stems : List (Nat × Bytes)) → Draft → Except Failure Draft
  | [], draft => .ok draft
  | (id, stem) :: rest, draft => do
    let counts ← tally.range (id * 256) 256
    if counts.all (· == 0) then throw (.unseenStem stem)
    else
      walkStems tally least rest ((counts.zipIdx.map fun (count, byte) =>
        Entry.mk (stem ++ [byte.toUInt8]) count).foldl (Draft.offer least) draft)

/-- Takes, on one walk over all counters, the n-grams above the least count and the first ones at
it. -/
def walk (tally : Tally) (least : UInt32) (budget : Nat) : Except Failure (List Entry) :=
  match tally.space with
  | .trigrams => .ok (tally.walkSlots least ⟨budget, []⟩).taken
  | .extensions trie => (tally.walkStems least trie.stems ⟨budget, []⟩).map (·.taken)

/-! ## What is offered -/

/-- All n-grams of a space in the order of their slots, each with the counter of its slot. -/
def offers (tally : Tally) : List Entry :=
  tally.space.grams.zipIdx.map fun (gram, slot) => ⟨gram, tally.count slot⟩

/-- The extensions of a stem with their counters. -/
def extensionsOf (tally : Tally) (stem : Nat × Bytes) : List Entry :=
  (List.range 256).map fun byte =>
    ⟨stem.2 ++ [byte.toUInt8], tally.count (stem.1 * 256 + byte)⟩

/-- The n-grams of a space are offered at their slots. -/
theorem offers_eq (made : tally.space.Made) : tally.offers =
    tally.slotCounts.map fun slot => Entry.mk ((tally.space.gram? slot.1).getD []) slot.2 := by
  apply List.ext_getElem?
  intro slot
  rw [offers, slotCounts, List.map_map, List.getElem?_map, List.getElem?_map, List.getElem?_zipIdx,
    Nat.zero_add]
  by_cases small : slot < tally.space.slots
  · rcases made.exists_gram? small with ⟨gram, found, -⟩
    rw [Space.getElem?_grams small, found, List.getElem?_range small]
    simp [found]
  · have large : tally.space.slots ≤ slot := Nat.le_of_not_lt small
    rw [List.getElem?_eq_none (by rw [made.length_grams]; exact large),
      List.getElem?_eq_none (by rw [List.length_range]; exact large)]
    rfl

private theorem zipIdx_map_range {α : Type} (f : Nat → α) (length first : Nat) :
    ((List.range length).map f).zipIdx first =
      (List.range length).map fun i => (f i, first + i) := by
  induction length with
  | zero => rfl
  | succ length ih =>
    rw [List.range_succ, List.map_append, List.zipIdx_append, ih, List.length_map,
      List.length_range, List.map_append]
    rfl

/-- The extensions of a stem are offered at the slots behind its number. -/
theorem extensionsOf_eq (id : Nat) (stem : Bytes) :
    tally.extensionsOf (id, stem) =
      ((allBytes.map fun byte => stem ++ [byte]).zipIdx (id * 256)).map fun (gram, slot) =>
        ⟨gram, tally.count slot⟩ := by
  rw [extensionsOf, allBytes, List.map_map, zipIdx_map_range, List.map_map]
  rfl

/-- The extensions of numbered stems are the n-grams with their counters from the first stem's
slots on. -/
theorem flatMap_extensionsOf (stems : List Bytes) (first : Nat) :
    ((stems.zipIdx first).map fun stem => (stem.2, stem.1)).flatMap tally.extensionsOf =
      ((extended stems).zipIdx (first * 256)).map fun (gram, slot) =>
        ⟨gram, tally.count slot⟩ := by
  induction stems generalizing first with
  | nil => rfl
  | cons stem rest ih =>
    have next : first * 256 + (allBytes.map fun byte => stem ++ [byte]).length =
        (first + 1) * 256 := by
      rw [List.length_map, length_allBytes]
      omega
    rw [List.zipIdx_cons, List.map_cons, List.flatMap_cons, ih, extended_cons, List.zipIdx_append,
      next, List.map_append, extensionsOf_eq]

theorem flatMap_stems {trie : RankTrie} (space_eq : tally.space = .extensions trie)
    (made : tally.space.Made) : trie.stems.flatMap tally.extensionsOf = tally.offers := by
  rw [space_eq] at made
  rcases made.spans with ⟨stems, spans⟩
  rw [offers, space_eq, Space.grams, spans.stems_eq, flatMap_extensionsOf, Nat.zero_mul,
    List.map_map]
  congr 2
  exact congrArg extended (List.zipIdx_map_fst 0 stems).symm

/-! ## The n-grams that are taken -/

/-- Whether no extension of a stem with a number was ever counted. -/
def neverSeen (tally : Tally) (stem : Nat × Bytes) : Bool :=
  (List.range 256).all fun byte => tally.count (stem.1 * 256 + byte) == 0

/-- The counters that belong to a stem's number are read, whatever regions they lie in. -/
theorem range_stem {id : Nat} (stem : Bytes) (inside : id * 256 + 256 ≤ tally.size) :
    ∃ counts, tally.range (id * 256) 256 = .ok counts ∧
      counts.all (· == 0) = tally.neverSeen (id, stem) ∧
      (counts.zipIdx.map fun (count, byte) => Entry.mk (stem ++ [byte.toUInt8]) count) =
        tally.extensionsOf (id, stem) := by
  refine ⟨_, tally.range_eq_ok inside, List.all_map, ?_⟩
  rw [extensionsOf, zipIdx_map_range, List.map_map]
  apply List.map_congr_left
  intro byte _
  rw [Function.comp_apply, Nat.zero_add]

/-- A walk over stems ends at the first one without a count, or it offers the extensions of all. -/
theorem walkStems_eq {stems : List (Nat × Bytes)}
    (inside : ∀ stem ∈ stems, stem.1 * 256 + 256 ≤ tally.size) (draft : Draft) :
    tally.walkStems least stems draft =
      match stems.find? tally.neverSeen with
      | some stem => .error (.unseenStem stem.2)
      | none => .ok ((stems.flatMap tally.extensionsOf).foldl (Draft.offer least) draft) := by
  induction stems generalizing draft with
  | nil => rfl
  | cons stem rest ih =>
    rcases stem with ⟨id, stem⟩
    rcases range_stem stem (inside (id, stem) List.mem_cons_self) with ⟨counts, read, zero, offered⟩
    have later := fun other member => inside other (List.mem_cons_of_mem _ member)
    have step : tally.walkStems least ((id, stem) :: rest) draft =
        if counts.all (· == 0) then .error (.unseenStem stem)
        else tally.walkStems least rest ((tally.extensionsOf (id, stem)).foldl
          (Draft.offer least) draft) := by
      rw [walkStems, read, ← offered]
      rfl
    rw [step, zero]
    by_cases unseen : tally.neverSeen (id, stem) = true
    · rw [if_pos unseen, List.find?_cons_of_pos unseen]
    · rw [if_neg unseen, List.find?_cons_of_neg unseen, List.flatMap_cons, List.foldl_append]
      exact ih later _

/-- Where no stem is unseen, a walk takes of all n-grams those that are admitted. -/
theorem taken_foldl_offers (made : tally.space.Made) :
    (tally.offers.foldl (Draft.offer least) ⟨budget, []⟩).taken =
      (materialize tally.space (admitted least budget (tally.candidates least budget))).entries := by
  have admits := tally.admits_slotCounts least budget
  rw [offers_eq made, admits.taken_foldl_offer fun slot => (tally.space.gram? slot).getD [],
    List.nil_append, materialize]
  have inside : ∀ pair ∈ admitted least budget (tally.candidates least budget),
      pair.1 < tally.space.slots := by
    intro pair member
    rcases List.mem_map.1 (admits.sublist.subset member) with ⟨slot, small, rfl⟩
    exact List.mem_range.1 small
  generalize admitted least budget (tally.candidates least budget) = chosen at inside
  induction chosen with
  | nil => rfl
  | cons pair rest ih =>
    rcases made.exists_gram? (inside pair List.mem_cons_self) with ⟨gram, found, -⟩
    have later := ih fun other member => inside other (List.mem_cons_of_mem _ member)
    rw [List.map_cons, later, found]
    rw [Space.gram?] at found
    simp only [List.filterMap_cons, found, Option.map_some, Option.getD_some]

/-- A walk over all counters selects what a selection does, and fails where it fails. -/
theorem walk_eq (made : tally.space.Made) (least : UInt32) (budget : Nat) :
    tally.walk least budget = (tally.select least budget).map (·.entries) := by
  cases space_eq : tally.space with
  | trigrams =>
    have all : tally.walkSlots least ⟨budget, []⟩ =
        tally.offers.foldl (Draft.offer least) ⟨budget, []⟩ := by
      have size_eq : tally.size = Space.trigramSlots := by rw [size_eq_slots, space_eq, Space.slots]
      have first : (tally.toList.takeWhile fun slot => slot.1 < Space.trigramSlots) =
          tally.toList := by
        apply List.takeWhile_eq_self_iff.2
        intro pair member
        rw [toList_eq] at member
        rcases List.mem_map.1 member with ⟨slot, small, rfl⟩
        rw [← size_eq]
        simpa using small
      rw [walkSlots, first, toList_eq, size_eq_slots, offers_eq made, slotCounts, space_eq]
      rfl
    simp only [walk, select, unseenStem?, space_eq, all, taken_foldl_offers made]
    rfl
  | extensions trie =>
    have inside : ∀ stem ∈ trie.stems, stem.1 * 256 + 256 ≤ tally.size := by
      intro stem member
      rw [space_eq] at made
      rcases made.spans with ⟨stems, spans⟩
      rcases List.getElem?_of_mem member with ⟨i, listed⟩
      rcases (getElem?_stems_iff spans).1 listed with ⟨number, searched⟩
      have small := (List.getElem?_eq_some_iff.1 (spans.search_eq_some_iff.1 searched)).1
      rw [size_eq_slots, space_eq, Space.slots, spans.stemCount_eq]
      omega
    have walked : tally.walk least budget =
        (tally.walkStems least trie.stems ⟨budget, []⟩).map (·.taken) := by
      rw [walk, space_eq]
    have unseen : tally.unseenStem? = (trie.stems.find? tally.neverSeen).map (·.2) :=
      unseenStem?_extensions space_eq
    rw [walked, walkStems_eq inside, select, unseen, flatMap_stems space_eq made]
    cases trie.stems.find? tally.neverSeen with
    | some stem => rfl
    | none => exact congrArg Except.ok (taken_foldl_offers made)

/-! ## The selection -/

/-- Where some stem is unseen, one of them has the smallest number. -/
theorem exists_firstUnseen {trie : RankTrie} {id : Nat} (made : tally.space.Made)
    (space_eq : tally.space = .extensions trie) (inside : id < trie.stemCount)
    (unseen : tally.Unseen id) : ∃ stem, tally.FirstUnseen stem := by
  have extending := made
  rw [space_eq] at extending
  rcases extending.spans with ⟨stems, spans⟩
  -- The induction goes down to a number below which every stem was seen.
  induction id using Nat.strongRecOn with
  | ind id ih =>
    by_cases earlier : ∃ other < id, tally.Unseen other
    · rcases earlier with ⟨other, before, none⟩
      exact ih other before (Nat.lt_trans before inside) none
    · rw [spans.stemCount_eq] at inside
      have searched := spans.search_eq_some_iff.2 (List.getElem?_eq_getElem inside)
      exact ⟨_, .intro space_eq searched unseen fun other before none =>
        earlier ⟨other, before, none⟩⟩

theorem select_eq_ok (seen : ∀ stem, ¬ tally.FirstUnseen stem) (made : tally.space.Made) :
    ∃ (table : GramTable) (slots : List Nat), tally.select least budget = .ok table ∧
      table.width = tally.space.gramLength ∧ slots.Pairwise (· < ·) ∧
      (∀ slot, slot ∈ slots ↔ tally.Admitted least budget slot) ∧
      (table.entries.map fun e => (tally.space.slot? e.gram, e.count)) =
        slots.map fun slot => (.ok (some slot), tally.count slot) := by
  have none : tally.unseenStem? = none :=
    Option.eq_none_iff_forall_ne_some.2 fun stem unseen =>
      seen stem ((unseenStem?_eq_some_iff made).1 unseen)
  have admits := tally.admits_slotCounts least budget
  have selected : tally.select least budget = .ok (materialize tally.space
      (admitted least budget (tally.candidates least budget))) := by
    rw [select, none]
  generalize admitted least budget (tally.candidates least budget) = chosen at admits selected
  have listed : ∀ pair ∈ chosen, pair.1 < tally.space.slots ∧ tally.count pair.1 = pair.2 := by
    intro pair member
    rcases List.mem_map.1 (admits.sublist.subset member) with ⟨slot, small, rfl⟩
    exact ⟨List.mem_range.1 small, rfl⟩
  refine ⟨_, chosen.map (·.1), selected, rfl, ?_, fun slot => mem_iff_admitted admits, ?_⟩
  · have ascending : tally.slotCounts.Pairwise fun a b => a.1 < b.1 :=
      List.pairwise_map.2 List.pairwise_lt_range
    exact List.pairwise_map.2 (ascending.sublist admits.sublist)
  · rw [map_materialize made fun pair member => (listed pair member).1, List.map_map]
    apply List.map_congr_left
    intro pair member
    rw [Function.comp_apply, (listed pair member).2]

/-- A selection goes by count, by budget and by the order of the slots, whatever the counters are.
A walk over all counters finds the same. In a space of extensions, a stem none of whose extensions
was counted makes the selection fail, and the failure names the stem with the smallest number.
Otherwise the selected slots, in ascending order, are those above the least count together with the
first ones at it, as many as the budget allows; every n-gram is listed with the counter of the slot
at which it is looked up. All slots stand for n-grams that are looked up at them. -/
theorem select_admits (made : tally.space.Made) (least : UInt32) (budget : Nat) :
    tally.walk least budget = (tally.select least budget).map (·.entries) ∧
      (∀ trie id, tally.space = .extensions trie → id < trie.stemCount → tally.Unseen id →
        ∃ stem, tally.FirstUnseen stem ∧
          tally.select least budget = .error (.unseenStem stem)) ∧
      ((∀ trie id, tally.space = .extensions trie → id < trie.stemCount → ¬ tally.Unseen id) →
        ∃ (table : GramTable) (slots : List Nat), tally.select least budget = .ok table ∧
          table.width = tally.space.gramLength ∧ slots.Pairwise (· < ·) ∧
          (∀ slot, slot ∈ slots ↔ tally.Admitted least budget slot) ∧
          (table.entries.map fun e => (tally.space.slot? e.gram, e.count)) =
            slots.map fun slot => (.ok (some slot), tally.count slot)) ∧
      ∀ slot < tally.space.slots, ∃ gram, tally.space.gram? slot = some gram ∧
        tally.space.slot? gram = .ok (some slot) := by
  refine ⟨walk_eq made least budget, ?fails, ?succeeds, ?decodes⟩
  case fails =>
    intro trie id space_eq inside unseen
    rcases exists_firstUnseen made space_eq inside unseen with ⟨stem, first⟩
    refine ⟨stem, first, ?_⟩
    rw [select, (unseenStem?_eq_some_iff made).2 first]
  case succeeds =>
    intro seen
    apply select_eq_ok _ made
    rintro stem ⟨space_eq, searched, unseen, -⟩
    have extending := made
    rw [space_eq] at extending
    rcases extending.spans with ⟨stems, spans⟩
    have inside := (List.getElem?_eq_some_iff.1 (spans.search_eq_some_iff.1 searched)).1
    rw [← spans.stemCount_eq] at inside
    exact seen _ _ space_eq inside unseen
  case decodes =>
    intro slot small
    rcases made.exists_gram? small with ⟨gram, found, width⟩
    exact ⟨gram, found, (made.slot?_eq_some_iff width).2 ⟨small, found⟩⟩

/-- Of two extensions of one stem that were counted twice each, one is selected beside the extension
that was counted more often. -/
theorem select_admits_of_tied_counters :
    ∃ (trie : RankTrie) (tally : Tally) (table : GramTable),
      (RankTrie.build ⟨1, [⟨[97], 2⟩], by simp⟩).2 = .ok trie ∧
        tally = ⟨.extensions trie, .ofList [(64, (2 : UInt32)), (65, 2), (70, 5)]⟩ ∧
        tally.select 2 1 = .ok table ∧
        (table.entries.map fun e => (tally.space.slot? e.gram, e.count)) =
          [(.ok (some 64), 2), (.ok (some 70), 5)] := by
  have fits : ∃ trie, (RankTrie.build ⟨1, [⟨[97], 2⟩], by simp⟩).2 = .ok trie := ⟨_, rfl⟩
  rcases fits with ⟨trie, built⟩
  have one : trie.stemCount = 1 := by
    have spans := (RankTrie.built_of_buildWith (Prod.ext rfl built)).spans
    rw [spans.stemCount_eq, List.length_map, (RankTrie.buildWith_perm _ _).length_eq]
    rfl
  obtain ⟨tally, tally_eq⟩ : ∃ tally : Tally, tally =
    ⟨.extensions trie, .ofList [(64, (2 : UInt32)), (65, 2), (70, 5)]⟩ := ⟨_, rfl⟩
  have space_eq : tally.space = .extensions trie := by rw [tally_eq]
  have count_eq : tally.count = fun slot =>
      (Std.TreeMap.ofList [(64, (2 : UInt32)), (65, 2), (70, 5)]).getD slot 0 := by
    rw [tally_eq]
    rfl
  have seen : ∀ other id, tally.space = .extensions other → id < other.stemCount →
      ¬ tally.Unseen id := by
    intro other id same inside unseen
    rw [space_eq] at same
    cases same
    obtain rfl : id = 0 := by omega
    have counted := unseen 64 (by decide)
    rw [count_eq] at counted
    exact absurd counted (by decide +kernel)
  have made : tally.space.Made := by
    rw [space_eq]
    exact .extensions built
  rcases (select_admits made 2 1).2.2.1 seen with
    ⟨table, slots, selected, -, ascending, member_iff, entries⟩
  have slots_eq : slots = [64, 70] := by
    have antisymmetric : Std.Antisymm fun a b : Nat => a < b :=
      ⟨fun a b less more => absurd less (Nat.lt_asymm more)⟩
    have irreflexive : Std.Irrefl fun a b : Nat => a < b := ⟨Nat.lt_irrefl⟩
    refine ascending.eq_of_mem_iff (by decide) fun slot => ?_
    rw [member_iff, Admitted, space_eq, Space.slots, one, count_eq]
    by_cases small : slot < 256
    · revert slot
      decide +kernel
    · simp [small]
      omega
  refine ⟨trie, tally, table, built, tally_eq, selected, ?_⟩
  rw [entries, slots_eq, count_eq]
  decide +kernel

end Tally

end GramCensus
