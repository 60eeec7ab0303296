import GramCensus.Proofs.MarkSet.Marks
import GramCensus.Tally.Basic

/-!
# Lanes

The bits of some words are counted in lanes: four groups of sixteen, one lane for each place in a
word. A lane ends up with the votes of its bit, the number of words that have it set
(`Lanes.lane_ofWords`). Writing the lanes back adds each of them to the counter of its bit and leaves
all other counters as they were (`Tally.getD_addLanes`).
-/

namespace GramCensus

/-- The number of words that have a bit set. -/
def Tally.votes (bits : List UInt64) (bit : Nat) : Nat :=
  bits.countP fun word => wordHas word bit

namespace Lanes

open Tally (votes)

variable {bit : Nat} {words : List UInt64}

/-! ## Counting bits -/

theorem getElem_countBits (bits : UInt16) (group : Vector UInt32 16) {l : Nat} (small : l < 16) :
    (countBits bits group)[l] = group[l] + (bits.toNat.testBit l).toNat.toUInt32 := by
  have amount : l.toUInt16.toNat % 16 = l := by
    rw [show l.toUInt16.toNat = l % 2 ^ 16 from UInt16.toNat_ofNat']
    omega
  have lowest : ∀ n : Nat, (n >>> l) % 2 = (n.testBit l).toNat := by
    intro n
    rw [Nat.testBit_eq_decide_div_mod_eq, Nat.shiftRight_eq_div_pow]
    rcases Nat.mod_two_eq_zero_or_one (n / 2 ^ l) with zero | one
    · rw [zero]
      rfl
    · rw [one]
      rfl
  rw [countBits, Vector.getElem_mapIdx]
  congr 1
  apply UInt32.toNat_inj.1
  rw [UInt16.toNat_toUInt32, UInt16.toNat_and, UInt16.toNat_shiftRight, amount,
    show (1 : UInt16).toNat = 1 from rfl, Nat.and_one_is_mod, lowest]
  cases bits.toNat.testBit l <;> rfl

/-- The bit at place `l` of the group `g` of a word, once the group is cut out. -/
theorem testBit_group (word : UInt64) (g : Fin 4) (l : Fin 16) :
    (word >>> (g.val * 16).toUInt64).toUInt16.toNat.testBit l.val =
      wordHas word (g.val * 16 + l.val) := by
  have amount : (g.val * 16).toUInt64.toNat % 64 = g.val * 16 := by
    rw [show (g.val * 16).toUInt64.toNat = g.val * 16 % 2 ^ 64 from UInt64.toNat_ofNat']
    omega
  rw [UInt64.toNat_toUInt16, UInt64.toNat_shiftRight, amount, Nat.testBit_mod_two_pow,
    Nat.testBit_shiftRight, decide_eq_true l.isLt, Bool.true_and, wordHas]

theorem lane_countWord (lanes : Lanes) (word : UInt64) (g : Fin 4) (l : Fin 16) :
    (lanes.countWord word).lane g l =
      lanes.lane g l + (wordHas word (g.val * 16 + l.val)).toNat.toUInt32 := by
  rw [countWord]
  split
  case isTrue zero =>
    subst zero
    rw [wordHas_zero]
    exact (UInt32.add_zero _).symm
  case isFalse =>
    simp only [lane, Fin.getElem_fin, Vector.getElem_mapIdx, getElem_countBits, testBit_group]

/-- The lane of a bit holds its votes, in the arithmetic of 32 bits. -/
theorem lane_ofWords (words : List UInt64) (g : Fin 4) (l : Fin 16) :
    (ofWords words).lane g l = (votes words (g.val * 16 + l.val)).toUInt32 := by
  -- What was counted before stays in the lane, so the induction is over any lanes to start from.
  have counted : ∀ lanes : Lanes, (words.foldl countWord lanes).lane g l =
      lanes.lane g l + (votes words (g.val * 16 + l.val)).toUInt32 := by
    induction words with
    | nil => exact fun lanes => (UInt32.add_zero _).symm
    | cons word rest ih =>
      intro lanes
      have first : votes (word :: rest) (g.val * 16 + l.val) =
          (wordHas word (g.val * 16 + l.val)).toNat + votes rest (g.val * 16 + l.val) := by
        rw [votes, List.countP_cons, votes, Nat.add_comm]
        cases wordHas word (g.val * 16 + l.val) <;> rfl
      rw [List.foldl_cons, ih, lane_countWord, UInt32.add_assoc, first]
      exact congrArg _ (UInt32.ofNat_add _ _).symm
  rw [ofWords, counted]
  have none : zero.lane g l = 0 := by
    simp [zero, lane]
  rw [none, UInt32.zero_add]

end Lanes

namespace Tally

/-! ## Words without bits -/

/-- A bit of some words joined is a bit of one of them. -/
theorem foldl_or_eq_zero_iff (words : List UInt64) :
    words.foldl (· ||| ·) 0 = 0 ↔ ∀ word ∈ words, word = 0 := by
  have joined : ∀ first : UInt64, words.foldl (· ||| ·) first = 0 ↔
      first = 0 ∧ ∀ word ∈ words, word = 0 := by
    induction words with
    | nil => simp
    | cons word rest ih =>
      intro first
      rw [List.foldl_cons, ih, UInt64.or_eq_zero_iff, List.forall_mem_cons, and_assoc]
  rw [joined, and_iff_right rfl]

/-- Words without bits have no votes. -/
theorem votes_eq_zero {words : List UInt64} (none : ∀ word ∈ words, word = 0) (bit : Nat) :
    votes words bit = 0 := by
  apply List.countP_eq_zero.2
  intro word member
  rw [none word member, wordHas_zero]
  exact Bool.false_ne_true

/-! ## Writing back -/

section

variable {α : Type} {items : List α} {slot : Nat}
  {add : Std.TreeMap Nat UInt32 → α → Std.TreeMap Nat UInt32}

/-- Additions to other counters leave a counter as it is. -/
theorem getD_foldl_of_none
    (others : ∀ item ∈ items, ∀ cells, (add cells item).getD slot 0 = cells.getD slot 0)
    (cells : Std.TreeMap Nat UInt32) : (items.foldl add cells).getD slot 0 = cells.getD slot 0 := by
  induction items generalizing cells with
  | nil => rfl
  | cons item rest ih =>
    rw [List.foldl_cons, ih fun each member => others each (List.mem_cons_of_mem _ member),
      others item List.mem_cons_self]

/-- Of additions to different counters one changes a counter. -/
theorem getD_foldl_of_one {own : α} {amount : UInt32} (distinct : items.Nodup) (member : own ∈ items)
    (adds : ∀ cells, (add cells own).getD slot 0 = cells.getD slot 0 + amount)
    (others : ∀ item, item ≠ own → ∀ cells, (add cells item).getD slot 0 = cells.getD slot 0)
    (cells : Std.TreeMap Nat UInt32) :
    (items.foldl add cells).getD slot 0 = cells.getD slot 0 + amount := by
  induction items generalizing cells with
  | nil => cases member
  | cons item rest ih =>
    rcases List.nodup_cons.1 distinct with ⟨new, distinct⟩
    rw [List.foldl_cons]
    rcases List.mem_cons.1 member with rfl | later
    · rw [getD_foldl_of_none (fun each listed => others each fun same => new (same ▸ listed)), adds]
    · rw [ih distinct later, others item fun same => new (same ▸ later)]

end

theorem getD_addTo (cells : Std.TreeMap Nat UInt32) (slot : Nat) (amount : UInt32) (other : Nat) :
    (addTo cells slot amount).getD other 0 =
      cells.getD other 0 + if slot = other then amount else 0 := by
  rw [addTo]
  by_cases same : slot = other
  · subst same
    rw [if_pos rfl]
    split
    case isTrue zero => rw [zero, UInt32.add_zero]
    case isFalse => rw [Std.TreeMap.getD_insert_self]
  · rw [if_neg same, UInt32.add_zero]
    split
    · rfl
    · rw [Std.TreeMap.getD_insert, if_neg (fun equal => same (Nat.compare_eq_eq.1 equal))]

theorem getD_addTo_of_ne {cells : Std.TreeMap Nat UInt32} {slot other : Nat} (amount : UInt32)
    (differs : slot ≠ other) : (addTo cells slot amount).getD other 0 = cells.getD other 0 := by
  rw [getD_addTo, if_neg differs, UInt32.add_zero]

/-- The counters of a group begin at its first one. -/
theorem getD_addGroup (first : Nat) (lane : Fin 16 → UInt32) (l : Fin 16)
    (cells : Std.TreeMap Nat UInt32) :
    (addGroup first lane cells).getD (first + l.val) 0 =
      cells.getD (first + l.val) 0 + lane l := by
  refine getD_foldl_of_one (List.nodup_finRange 16) (List.mem_finRange l) ?_ ?_ cells
  · intro cells
    rw [getD_addTo, if_pos rfl]
  · intro other differs cells
    exact getD_addTo_of_ne _ (by omega)

theorem getD_addGroup_of_outside {first slot : Nat} (lane : Fin 16 → UInt32)
    (outside : slot < first ∨ first + 16 ≤ slot) (cells : Std.TreeMap Nat UInt32) :
    (addGroup first lane cells).getD slot 0 = cells.getD slot 0 :=
  getD_foldl_of_none (fun l _ cells => getD_addTo_of_ne _ (by omega)) cells

/-- Every lane is added to the counter of its bit, and no other counter changes. -/
theorem getD_addLanes (word : Nat) (words : List UInt64) (cells : Std.TreeMap Nat UInt32)
    (slot : Nat) :
    (addLanes (word * 64) (Lanes.ofWords words) cells).getD slot 0 = cells.getD slot 0 +
      (if slot / 64 = word then votes words (slot % 64) else 0).toUInt32 := by
  by_cases same : slot / 64 = word
  · -- The slot is the one at place `l` behind the first slot of group `g`.
    obtain ⟨g, g_eq⟩ : ∃ g : Fin 4, g.val = slot % 64 / 16 := ⟨⟨slot % 64 / 16, by omega⟩, rfl⟩
    obtain ⟨l, l_eq⟩ : ∃ l : Fin 16, l.val = slot % 16 := ⟨⟨slot % 16, by omega⟩, rfl⟩
    have place : slot = word * 64 + g.val * 16 + l.val := by omega
    have bit : slot % 64 = g.val * 16 + l.val := by omega
    rw [if_pos same, bit, ← Lanes.lane_ofWords, place]
    refine getD_foldl_of_one (List.nodup_finRange 4) (List.mem_finRange g) ?_ ?_ cells
    · exact getD_addGroup _ _ l
    · intro other differs cells
      exact getD_addGroup_of_outside _ (by omega) cells
  · rw [if_neg same]
    refine (getD_foldl_of_none (fun g _ cells => ?_) cells).trans (UInt32.add_zero _).symm
    exact getD_addGroup_of_outside _ (by omega) cells

end Tally

end GramCensus
