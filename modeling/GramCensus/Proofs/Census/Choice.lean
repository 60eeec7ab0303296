import Mathlib.Data.List.Find
import GramCensus.Proofs.Tally.Top
import GramCensus.Proofs.Space.Grams
import GramCensus.Proofs.Census.Presence

/-!
# What a pass selects

From the tally of a counting pass the `k` most frequent n-grams are selected by their spread, in the
order of the slots (`Tally.Records.top_of_none`). The selection fails for the first stem in rank
order that no file extends, and for no other reason (`Tally.Records.unseenStem?_eq`).
-/

namespace GramCensus

/-- A table holds the `k` most frequent candidates with their frequencies. -/
structure GramTable.Selects (table : GramTable) (frequency : Bytes → Nat) (k : Nat)
    (candidates : List Bytes) : Prop where
  selection : Selection frequency k candidates (table.entries.map (·.gram))
  counted : ∀ e ∈ table.entries, e.count.toNat = frequency e.gram

/-- No file goes on behind a stem. -/
def Unextended (frequency : Bytes → Nat) (stem : Bytes) : Prop :=
  ∀ byte, frequency (stem ++ [byte]) = 0

instance (frequency : Bytes → Nat) (stem : Bytes) : Decidable (Unextended frequency stem) :=
  decidable_of_iff ((allBytes.all fun byte => frequency (stem ++ [byte]) == 0) = true) <| by
    rw [List.all_eq_true]
    constructor
    · exact fun all byte => eq_of_beq (all byte (mem_allBytes byte))
    · exact fun all byte _ => beq_iff_eq.2 (all byte)

namespace Tally

variable {tally : Tally} {space : Space} {size k : Nat} {files : List OpenedFile}

namespace Records

theorem contained (recorded : tally.Records space size files) (made : space.Made) :
    tally.Contained := by
  intro slot large
  rw [recorded.space_eq] at large
  apply recorded.silent
  intro gram width numbered
  exact absurd ((made.slot?_eq_some_iff width).1 numbered).1 (Nat.not_lt.2 large)

theorem toNat_count (recorded : tally.Records space size files) (made : space.Made) {slot : Nat}
    {gram : Bytes} (place : space.grams[slot]? = some gram) :
    (tally.count slot).toNat = spread size files gram :=
  recorded.counted gram slot (made.length_of_mem_grams (List.mem_of_getElem? place))
    (made.slot?_of_getElem? place)

/-! ## The selection -/

/-- The n-gram of a slot, or the empty one past the last slot. -/
private def gramAt (space : Space) (slot : Nat) : Bytes :=
  (space.gram? slot).getD []

private theorem getElem?_grams (made : space.Made) {slot : Nat} (small : slot < space.slots) :
    space.grams[slot]? = some (gramAt space slot) := by
  rcases made.exists_gram? small with ⟨gram, found, -⟩
  rw [Space.getElem?_grams small, gramAt, found]
  rfl

private theorem map_gramAt_slotCounts (recorded : tally.Records space size files)
    (made : space.Made) :
    (tally.slotCounts.map fun pair => gramAt space pair.1) = space.grams := by
  apply List.ext_getElem?
  intro slot
  rw [slotCounts, recorded.space_eq, List.map_map, List.getElem?_map]
  by_cases small : slot < space.slots
  · rw [List.getElem?_range small, getElem?_grams made small]
    rfl
  · rw [List.getElem?_eq_none (by rw [List.length_range]; omega),
      List.getElem?_eq_none (by rw [made.length_grams]; omega)]
    rfl

/-- What is made of some slots are their n-grams with their counters. -/
private theorem entries_materialize (made : space.Made) {chosen : List (Nat × UInt32)}
    (small : ∀ pair ∈ chosen, pair.1 < space.slots) :
    (materialize space chosen).entries =
      chosen.map fun pair => ⟨gramAt space pair.1, pair.2⟩ := by
  rw [materialize]
  induction chosen with
  | nil => rfl
  | cons pair rest ih =>
    rcases made.exists_gram? (small pair List.mem_cons_self) with ⟨gram, found, -⟩
    have named : gramAt space pair.1 = gram := by rw [gramAt, found]; rfl
    rw [Space.gram?] at found
    have later := ih fun other member => small other (List.mem_cons_of_mem _ member)
    simp only [List.filterMap_cons, found, Option.map_some, List.map_cons, named]
    exact congrArg _ later

/-- Unless a stem was never extended, the most frequent n-grams are found. -/
theorem top_of_none (recorded : tally.Records space size files) (made : space.Made)
    (seen : tally.unseenStem? = none) (k : Nat) :
    ∃ table, tally.top k = .ok table ∧ table.width = space.gramLength ∧
      table.Selects (spread size files) k space.grams := by
  rcases tally.top_cases (recorded.contained made) k with ⟨chosen, selection, -, succeeds⟩
  have listed : ∀ pair ∈ chosen, pair.1 < space.slots ∧ pair.2 = tally.count pair.1 := by
    intro pair member
    rcases List.mem_map.1 (selection.sublist.subset member) with ⟨slot, inside, rfl⟩
    rw [recorded.space_eq] at inside
    exact ⟨List.mem_range.1 inside, rfl⟩
  have entries := entries_materialize made fun pair member => (listed pair member).1
  refine ⟨_, succeeds seen, congrArg Space.gramLength recorded.space_eq, ?_, ?_⟩
  · -- Renamed from slots to n-grams, the selection of slots is one of n-grams.
    rw [recorded.space_eq, entries, List.map_map, ← map_gramAt_slotCounts recorded made]
    apply selection.map
    intro pair member
    rcases List.mem_map.1 member with ⟨slot, inside, rfl⟩
    rw [recorded.space_eq] at inside
    exact (recorded.toNat_count made (getElem?_grams made (List.mem_range.1 inside))).symm
  · intro e member
    rw [recorded.space_eq, entries] at member
    rcases List.mem_map.1 member with ⟨pair, taken, rfl⟩
    rcases listed pair taken with ⟨small, same⟩
    dsimp only
    rw [same]
    exact recorded.toNat_count made (getElem?_grams made small)

theorem top_of_some (recorded : tally.Records space size files) (made : space.Made) {stem : Bytes}
    (unseen : tally.unseenStem? = some stem) (k : Nat) : tally.top k = .error (.unseenStem stem) := by
  rcases tally.top_cases (recorded.contained made) k with ⟨chosen, -, fails, -⟩
  exact fails stem unseen

/-! ## Stems without an extension -/

/-- The counters of all extensions of a stem are zero exactly if no file extends it. -/
private theorem unseen_iff {trie : RankTrie} (recorded : tally.Records (.extensions trie) size files)
    (made : Space.Made (.extensions trie)) {id : Nat} {stem : Bytes}
    (place : (trie.stems.map (·.2))[id]? = some stem) :
    ((List.range 256).all fun byte => tally.count (id * 256 + byte) == 0) = true ↔
      Unextended (spread size files) stem := by
  have counted : ∀ byte < 256, (tally.count (id * 256 + byte)).toNat =
      spread size files (stem ++ [byte.toUInt8]) := by
    intro byte small
    apply recorded.toNat_count made
    have number : (id * 256 + byte) / 256 = id := by omega
    have last : (id * 256 + byte).toUInt8 = byte.toUInt8 := by
      apply Space.toUInt8_eq
      rw [show byte.toUInt8.toNat = byte % 256 from UInt8.toNat_ofNat']
      omega
    rw [Space.grams, getElem?_extended, number, place, last]
    rfl
  rw [List.all_eq_true]
  -- A byte and its number say the same, in both directions.
  constructor
  · intro zero byte
    have none := zero byte.toNat (List.mem_range.2 byte.toNat_lt)
    rw [← UInt8.ofNat_toNat (x := byte), ← counted byte.toNat byte.toNat_lt, eq_of_beq none]
    rfl
  · intro unextended byte member
    have small := List.mem_range.1 member
    apply beq_iff_eq.2
    apply UInt32.toNat_inj.1
    rw [counted byte small, unextended]
    rfl

/-- The stem that a selection fails for is the first one that no file extends. -/
theorem unseenStem?_eq {trie : RankTrie} {stems : List Bytes}
    (recorded : tally.Records (.extensions trie) size files)
    (made : Space.Made (.extensions trie)) (spans : trie.Over stems) :
    tally.unseenStem? = stems.find? fun stem => decide (Unextended (spread size files) stem) := by
  have listed : trie.stems.map (·.2) = stems := by
    rw [spans.stems_eq, List.map_map]
    exact List.zipIdx_map_fst 0 stems
  rw [← listed, List.find?_map, unseenStem?, recorded.space_eq]
  dsimp only
  congr 1
  apply List.find?_congr
  intro pair member
  rw [spans.stems_eq] at member
  rcases List.mem_map.1 member with ⟨⟨stem, id⟩, numbered, rfl⟩
  have place := List.mem_zipIdx_iff_getElem?.1 numbered
  rw [← listed] at place
  exact Bool.eq_iff_iff.2 ((unseen_iff recorded made place).trans decide_eq_true_iff.symm)

end Records

end Tally

end GramCensus
