import GramCensus.Proofs.Tally.Growth

/-!
# Sequences of additions

Bits are added to a tally in calls, each of them for one word of counters. Whatever calls are made,
and in which order, every counter grows by the votes that the calls for its word have for its bit,
and what one call adds may as well be added by several (`Tally.addAll_counts`). A call for a word
without counters fails by its first bit and changes nothing.
-/

namespace GramCensus

/-- What one call adds: the same word of several mark sets. -/
structure Addition where
  word : Nat
  bits : List UInt64
deriving DecidableEq

namespace Addition

open Tally (votes)

variable {calls : List Addition} {word bit : Nat}

/-- The votes that the calls for a word have for one of its bits. -/
def total (calls : List Addition) (word bit : Nat) : Nat :=
  ((calls.filter fun call => call.word = word).map fun call => votes call.bits bit).sum

theorem total_cons (call : Addition) (calls : List Addition) (word bit : Nat) :
    total (call :: calls) word bit =
      (if call.word = word then votes call.bits bit else 0) + total calls word bit := by
  rw [total, total, List.filter_cons]
  by_cases same : call.word = word
  · rw [if_pos (decide_eq_true same), if_pos same, List.map_cons, List.sum_cons]
  · rw [if_neg (by simpa using same), if_neg same, Nat.zero_add]

theorem total_append (calls others : List Addition) (word bit : Nat) :
    total (calls ++ others) word bit = total calls word bit + total others word bit := by
  rw [total, List.filter_append, List.map_append, List.sum_append, total, total]

theorem total_of_perm {others : List Addition} (perm : calls.Perm others) (word bit : Nat) :
    total calls word bit = total others word bit :=
  ((perm.filter _).map _).sum_nat

/-- Calls for the parts of a slice have the votes of the whole slice. -/
theorem total_parts (own : Nat) (parts : List (List UInt64)) (word bit : Nat) :
    total (parts.map fun part => ⟨own, part⟩) word bit =
      total [⟨own, parts.flatten⟩] word bit := by
  rw [total_cons, show total [] word bit = 0 from rfl, Nat.add_zero]
  induction parts with
  | nil => exact (ite_self 0).symm
  | cons part rest ih =>
    rw [List.map_cons, total_cons, ih, List.flatten_cons]
    by_cases same : own = word
    · rw [if_pos same, if_pos same, if_pos same]
      exact List.countP_append.symm
    · rw [if_neg same, if_neg same, if_neg same]

end Addition

namespace Tally

open Addition (total)

variable {tally : Tally}

/-- What a call leaves of a tally, whether it fails or not. -/
def add (tally : Tally) (call : Addition) : Tally :=
  (tally.addBits call.word call.bits).1

/-- What several calls leave of a tally, one after the other. -/
def addAll (tally : Tally) (calls : List Addition) : Tally :=
  calls.foldl add tally

/-- A tally has grown by some calls, and by nothing else. -/
structure GrewBy (calls : List Addition) (tally grown : Tally) : Prop where
  space_eq : grown.space = tally.space
  /-- Counters are added to in the arithmetic of 32 bits. -/
  counted : ∀ word < tally.words, ∀ bit < 64, grown.count (word * 64 + bit) =
    tally.count (word * 64 + bit) + (total calls word bit).toUInt32
  /-- Where the sum is in range it is the counter. -/
  exact : ∀ word < tally.words, ∀ bit < 64,
    (tally.count (word * 64 + bit)).toNat + total calls word bit < 2 ^ 32 →
      (grown.count (word * 64 + bit)).toNat =
        (tally.count (word * 64 + bit)).toNat + total calls word bit
  untouched : ∀ slot, tally.size ≤ slot ∨ total calls (slot / 64) (slot % 64) = 0 →
    grown.count slot = tally.count slot

theorem space_add (tally : Tally) (call : Addition) : (tally.add call).space = tally.space := by
  rw [add, addBits]
  split
  · rfl
  · split
    · rfl
    · rfl

theorem count_add (tally : Tally) (call : Addition) (slot : Nat) :
    (tally.add call).count slot = tally.count slot +
      (if slot < tally.size then total [call] (slot / 64) (slot % 64) else 0).toUInt32 := by
  rw [Addition.total_cons, show total [] (slot / 64) (slot % 64) = 0 from rfl, Nat.add_zero]
  rcases Nat.lt_or_ge call.word tally.words with inside | outside
  · rcases addBits_eq_ok inside call.bits with ⟨grown, added, -, counts⟩
    rw [add, added, counts]
    by_cases same : slot / 64 = call.word
    · have below : slot < tally.size := by
        rw [size]
        omega
      rw [if_pos same, if_pos below, if_pos same.symm]
    · rw [if_neg same, if_neg (Ne.symm same), ite_self]
  · -- A word without counters has no slot of the tally.
    have same : tally.add call = tally := by
      rw [add]
      by_cases none : ∀ entry ∈ call.bits, entry = 0
      · rw [addBits_of_forall_zero none]
      · rw [addBits_eq_error outside (by simpa using none)]
    rw [same]
    split
    case isTrue below =>
      rw [size] at below
      rw [if_neg (by omega), add_toUInt32_zero]
    case isFalse => rw [add_toUInt32_zero]

theorem space_addAll (tally : Tally) (calls : List Addition) :
    (tally.addAll calls).space = tally.space := by
  induction calls generalizing tally with
  | nil => rfl
  | cons call rest ih => exact (ih (tally.add call)).trans (tally.space_add call)

theorem count_addAll (tally : Tally) (calls : List Addition) (slot : Nat) :
    (tally.addAll calls).count slot = tally.count slot +
      (if slot < tally.size then total calls (slot / 64) (slot % 64) else 0).toUInt32 := by
  induction calls generalizing tally with
  | nil => rw [show total [] (slot / 64) (slot % 64) = 0 from rfl, ite_self, add_toUInt32_zero]; rfl
  | cons call rest ih =>
    rw [addAll, List.foldl_cons]
    refine (ih (tally.add call)).trans ?_
    rw [size_congr (tally.space_add call), count_add, add_toUInt32_add]
    congr 2
    split
    · exact (Addition.total_append [call] rest _ _).symm
    · rfl

theorem grewBy_addAll (tally : Tally) (calls : List Addition) :
    GrewBy calls tally (tally.addAll calls) := by
  have counted : ∀ word < tally.words, ∀ bit < 64, (tally.addAll calls).count (word * 64 + bit) =
      tally.count (word * 64 + bit) + (total calls word bit).toUInt32 := by
    intro word inside bit small
    have below : word * 64 + bit < tally.size := by
      rw [size]
      omega
    rw [count_addAll, if_pos below, show (word * 64 + bit) / 64 = word by omega,
      show (word * 64 + bit) % 64 = bit by omega]
  refine ⟨tally.space_addAll calls, counted, ?_, ?_⟩
  · intro word inside bit small fits
    rw [counted word inside bit small, toNat_add_toUInt32, Nat.mod_eq_of_lt fits]
  · rintro slot (behind | none)
    · rw [count_addAll, if_neg (Nat.not_lt.2 behind), add_toUInt32_zero]
    · rw [count_addAll, none, ite_self, add_toUInt32_zero]

/-- Calls with the same votes leave the same counters. -/
theorem agrees_addAll {calls others : List Addition}
    (same : ∀ word bit, total calls word bit = total others word bit) (tally : Tally) :
    Agrees (tally.addAll calls) (tally.addAll others) := by
  refine ⟨by rw [space_addAll, space_addAll], ?_⟩
  intro slot
  rw [count_addAll, count_addAll, same]

/-- Calls add to every counter the votes for its bit, and nothing to any other; reordered calls and
calls whose slice is cut into parts leave the same counters. A call for a word without counters fails
if and only if there is a bit in its slice, and then no counter has changed. -/
theorem addAll_counts (tally : Tally) (calls : List Addition) :
    GrewBy calls tally (tally.addAll calls) ∧
      (∀ reordered : List Addition, reordered.Perm calls →
        Agrees (tally.addAll reordered) (tally.addAll calls)) ∧
      (∀ (before after : List Addition) (word : Nat) (parts : List (List UInt64)),
        calls = before ++ ⟨word, parts.flatten⟩ :: after →
          Agrees (tally.addAll (before ++ parts.map (fun part => ⟨word, part⟩) ++ after))
            (tally.addAll calls)) ∧
      ∀ (word : Nat) (bits : List UInt64), tally.words ≤ word →
        ((tally.addBits word bits).2 = .error .outOfRange ↔ ∃ entry ∈ bits, entry ≠ 0) ∧
        ((tally.addBits word bits).2 = .ok () ↔ ∀ entry ∈ bits, entry = 0) ∧
        (tally.addBits word bits).1 = tally := by
  refine ⟨tally.grewBy_addAll calls, ?reordered, ?parted, ?refused⟩
  case reordered =>
    intro reordered perm
    exact agrees_addAll (Addition.total_of_perm perm) tally
  case parted =>
    rintro before after word parts rfl
    refine agrees_addAll (fun own bit => ?_) tally
    rw [Addition.total_append, Addition.total_append, Addition.total_parts, Addition.total_append,
      Nat.add_assoc, ← Addition.total_append, List.singleton_append]
  case refused =>
    intro word bits outside
    by_cases none : ∀ entry ∈ bits, entry = 0
    · rw [addBits_of_forall_zero none]
      refine ⟨⟨nofun, ?_⟩, ⟨fun _ => none, fun _ => rfl⟩, rfl⟩
      rintro ⟨entry, member, differs⟩
      exact absurd (none entry member) differs
    · have some : ∃ entry ∈ bits, entry ≠ 0 := by simpa using none
      rw [addBits_eq_error outside some]
      exact ⟨⟨fun _ => some, fun _ => rfl⟩, ⟨nofun, fun all => absurd all none⟩, rfl⟩

/-- Three calls: the first one may come as two, and the second is refused. -/
theorem addAll_counts_of_refused_call :
    let calls : List Addition := [⟨0, [5, 4]⟩, ⟨2 ^ 18, [0, 1]⟩, ⟨0, [1]⟩]
    let grown := (zero .trigrams).addAll calls
    (grown.count 0).toNat = 2 ∧ (grown.count 2).toNat = 2 ∧ grown.count 1 = 0 ∧
      Agrees ((zero .trigrams).addAll [⟨0, [1]⟩, ⟨0, [5, 4]⟩, ⟨2 ^ 18, [0, 1]⟩]) grown ∧
      Agrees ((zero .trigrams).addAll [⟨0, [5]⟩, ⟨0, [4]⟩, ⟨2 ^ 18, [0, 1]⟩, ⟨0, [1]⟩]) grown ∧
      ((zero .trigrams).addBits (2 ^ 18) [0, 1]).2 = .error .outOfRange := by
  intro calls grown
  have none : ∀ slot, (zero .trigrams).count slot = 0 := fun slot => Std.TreeMap.getD_emptyc
  rcases addAll_counts (zero .trigrams) calls with ⟨grew, reordered, parted, refused⟩
  refine ⟨?_, ?_, ?_, reordered _ ?_, parted [] [⟨2 ^ 18, [0, 1]⟩, ⟨0, [1]⟩] 0 [[5], [4]] rfl,
    (refused (2 ^ 18) [0, 1] (by decide)).1.2 ⟨1, by decide⟩⟩
  · rw [show (0 : Nat) = 0 * 64 + 0 from rfl, grew.exact 0 (by decide) 0 (by decide), none]
    · rfl
    · rw [none]
      decide
  · rw [show (2 : Nat) = 0 * 64 + 2 from rfl, grew.exact 0 (by decide) 2 (by decide), none]
    · rfl
    · rw [none]
      decide
  · rw [grew.untouched 1 (.inr (by decide)), none]
  · decide

end Tally

end GramCensus
