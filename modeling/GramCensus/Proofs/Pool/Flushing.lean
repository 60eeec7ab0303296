import Mathlib.Algebra.Order.Floor.Div
import Mathlib.GroupTheory.GroupAction.Ring
import GramCensus.Proofs.Pool.Slots
import GramCensus.Proofs.Tally.Growth

/-!
# Flushing without loss

Flushing, be it one group or many, moves sets that wait into the tally and frees their slots, and
leaves everything else as it is (`Counting.Drains`). A flush of one group has three ends
(`Counting.FlushEnd`); it breaks down only by a mark that has no counter. Enough flushes, and so the
closing of a pool, count all that waits in as few groups as there can be
(`Counting.flushRounds_cases`, `Counting.close_cases`).
-/

namespace GramCensus

namespace Counting

variable {counting : Counting}

theorem mem_nextGroup {pool : Pool} {i : Nat} (member : i ∈ nextGroup pool) :
    ∃ slot, pool.slots[i]? = some slot ∧ slot.phase = .waiting :=
  Pool.mem_inPhase_iff.1 (List.mem_of_mem_take member)

theorem nodup_nextGroup (pool : Pool) : (nextGroup pool).Nodup :=
  (Pool.nodup_inPhase .waiting).sublist (List.take_sublist _ _)

def waiting (counting : Counting) : Nat :=
  counting.pool.slots.countP fun slot => decide (slot.phase = .waiting)

/-- A slot behind a flush that took it: free, without marks. -/
def flushed (slot : Slot) : Slot :=
  ⟨.free, slot.marks.clear⟩

theorem length_nextGroup (counting : Counting) :
    (nextGroup counting.pool).length = min counting.pool.groupSize counting.waiting := by
  rw [nextGroup, List.length_take, Pool.length_inPhase]
  rfl

/-- What does not wait does not wait with a mark. -/
theorem waitingWith_eq_zero (none : counting.waiting = 0) (mark : Nat) :
    counting.pool.waitingWith mark = 0 := by
  apply List.countP_eq_zero.2
  intro slot member waits
  exact List.countP_eq_zero.1 none slot member (Bool.and_eq_true_iff.1 waits).1

/-! ## What a flush does -/

/-- All bits of the mark sets of a pool lie in their extents. -/
def Tidy (counting : Counting) : Prop :=
  ∀ slot ∈ counting.pool.slots, slot.marks.Tidy

/-- The mark sets of a pool are of its tally's size, with all their bits in their extents. -/
def Shaped (counting : Counting) : Prop :=
  ∀ slot ∈ counting.pool.slots, slot.Shaped counting.tally.words

/-- The tally has a counter for every mark that waits. -/
def Fits (counting : Counting) : Prop :=
  ∀ slot ∈ counting.pool.slots, slot.phase = .waiting → slot.marks.Within counting.tally.size

theorem Shaped.tidy (shaped : counting.Shaped) : counting.Tidy :=
  fun slot member => (shaped slot member).tidy

theorem Shaped.fits (shaped : counting.Shaped) : counting.Fits := by
  intro slot member _
  have shape := shaped slot member
  exact shape.tidy.within_of_le (shape.size_eq ▸ shape.tidy.inside)

/-- What flushing does, be it one group or many: sets that wait are counted and freed, and all other
slots stay as they are. -/
structure Drains (before after : Counting) : Prop where
  space_eq : after.tally.space = before.tally.space
  size_eq : after.pool.size = before.pool.size
  groupSize_eq : after.pool.groupSize = before.pool.groupSize
  waits_eq : after.pool.waits = before.pool.waits
  slot_cases : ∀ i : Nat, after.pool.slots[i]? = before.pool.slots[i]? ∨
    ∃ slot, before.pool.slots[i]? = some slot ∧ slot.phase = .waiting ∧
      after.pool.slots[i]? = some (flushed slot)
  counted : ∀ mark, ∃ moved, after.tally.count mark = before.tally.count mark + moved.toUInt32 ∧
    after.pool.waitingWith mark + moved = before.pool.waitingWith mark
  flushedSets_eq : after.pool.flushedSets + after.waiting = before.pool.flushedSets + before.waiting

namespace Drains

variable {before after : Counting}

theorem refl (counting : Counting) : counting.Drains counting :=
  ⟨rfl, rfl, rfl, rfl, fun _ => .inl rfl, fun _ => ⟨0, (UInt32.add_zero _).symm, rfl⟩, rfl⟩

theorem trans {first second third : Counting} (before : first.Drains second)
    (behind : second.Drains third) : first.Drains third where
  space_eq := behind.space_eq.trans before.space_eq
  size_eq := behind.size_eq.trans before.size_eq
  groupSize_eq := behind.groupSize_eq.trans before.groupSize_eq
  waits_eq := behind.waits_eq.trans before.waits_eq
  slot_cases := by
    intro i
    rcases before.slot_cases i with same | ⟨slot, found, waits, freed⟩
    · rw [← same]
      exact behind.slot_cases i
    · rcases behind.slot_cases i with same | ⟨other, again, waits', -⟩
      · exact .inr ⟨slot, found, waits, same.trans freed⟩
      · -- What was freed does not wait, so it is not taken again.
        cases freed.symm.trans again
        cases waits'
  counted := by
    intro mark
    rcases before.counted mark with ⟨first, grown, less⟩
    rcases behind.counted mark with ⟨second, more, fewer⟩
    exact ⟨first + second, by rw [more, grown, Tally.add_toUInt32_add], by omega⟩
  flushedSets_eq := behind.flushedSets_eq.trans before.flushedSets_eq

theorem words_eq (drains : before.Drains after) : after.tally.words = before.tally.words :=
  Tally.words_congr drains.space_eq

/-- What holds of all slots, and of a slot that was freed, still holds of all slots. -/
theorem forall_slots (drains : before.Drains after) {p : Slot → Prop}
    (holds : ∀ slot ∈ before.pool.slots, p slot)
    (frees : ∀ slot, p slot → slot.phase = .waiting → p (flushed slot)) :
    ∀ slot ∈ after.pool.slots, p slot := by
  intro slot member
  rcases List.getElem?_of_mem member with ⟨i, found⟩
  rcases drains.slot_cases i with same | ⟨other, held, waits, freed⟩
  · exact holds slot (List.mem_of_getElem? (same.symm.trans found))
  · cases found.symm.trans freed
    exact frees other (holds other (List.mem_of_getElem? held)) waits

theorem tidy (drains : before.Drains after) (tidy : before.Tidy) : after.Tidy :=
  drains.forall_slots tidy fun _ old _ => old.clear

/-- A flush leaves no more sets to wait than there were. -/
theorem fits (drains : before.Drains after) (fits : before.Fits) : after.Fits := by
  rw [Fits, Tally.size_congr drains.space_eq]
  refine drains.forall_slots fits fun _ _ _ waits => ?_
  cases waits

theorem shaped (drains : before.Drains after) (shaped : before.Shaped) : after.Shaped := by
  rw [Shaped, drains.words_eq]
  exact drains.forall_slots shaped fun _ old _ => ⟨old.tidy.clear, old.size_eq⟩

theorem settled (drains : before.Drains after) (settled : before.pool.Settled before.tally.words) :
    after.pool.Settled after.tally.words := by
  rw [Pool.Settled, drains.words_eq]
  exact drains.forall_slots settled fun _ old _ =>
    ⟨old.tidy.clear, old.size_eq, fun _ => rfl, .inl rfl⟩

/-- A flush leaves all leases alone. -/
theorem leased?_eq (drains : before.Drains after) (i : Nat) :
    after.pool.leased? i = before.pool.leased? i := by
  rcases drains.slot_cases i with same | ⟨⟨phase, marks⟩, found, waits, freed⟩
  · rw [Pool.leased?, Pool.leased?, same]
  · cases waits
    rw [Pool.leased?, Pool.leased?, found, freed]
    rfl

end Drains

section Group

variable {group : List Nat}

theorem mem_slots_of_group
    (waits : ∀ i ∈ group, ∃ slot, counting.pool.slots[i]? = some slot ∧ slot.phase = .waiting) :
    ∀ slot ∈ group.filterMap fun i => counting.pool.slots[i]?,
      slot ∈ counting.pool.slots ∧ slot.phase = .waiting := by
  intro slot member
  rcases List.mem_filterMap.1 member with ⟨i, listed, found⟩
  rcases waits i listed with ⟨other, same, phase⟩
  cases found.symm.trans same
  exact ⟨List.mem_of_getElem? found, phase⟩

theorem Fits.setsAt (fits : counting.Fits)
    (waits : ∀ i ∈ group, ∃ slot, counting.pool.slots[i]? = some slot ∧ slot.phase = .waiting) :
    ∀ marks ∈ counting.pool.setsAt group, marks.Within counting.tally.size := by
  intro marks member
  rcases List.mem_filterMap.1 member with ⟨i, taken, found⟩
  rcases waits i taken with ⟨slot, held, waits⟩
  rw [held] at found
  cases found
  exact fits slot (List.mem_of_getElem? held) waits

/-- The sets of a group that waits are added to the tally, or it has no counter for one of their
marks. -/
theorem addMarks_group (tidy : counting.Tidy)
    (waits : ∀ i ∈ group, ∃ slot, counting.pool.slots[i]? = some slot ∧ slot.phase = .waiting) :
    (∀ marks ∈ counting.pool.setsAt group, marks.Within counting.tally.size) ∧
        (∃ grown, counting.tally.addMarks (counting.pool.setsAt group) = (grown, .ok ()) ∧
          grown.space = counting.tally.space ∧
          ∀ mark, grown.count mark = counting.tally.count mark +
            ((group.filterMap fun i => counting.pool.slots[i]?).countP
              (Pool.waitsWith mark)).toUInt32) ∨
      ¬ (∀ marks ∈ counting.pool.setsAt group, marks.Within counting.tally.size) ∧
        ∃ after, counting.tally.addMarks (counting.pool.setsAt group) =
          (after, .error .outOfRange) := by
  have taken := mem_slots_of_group waits
  rw [Pool.setsAt_eq_map]
  refine (Tally.addMarks_cases counting.tally ?tidy).imp_left (And.imp_right ?counts)
  case tidy =>
    intro marks member
    rcases List.mem_map.1 member with ⟨slot, listed, rfl⟩
    exact tidy slot (taken slot listed).1
  case counts =>
    rintro ⟨grown, adding, space, counts⟩
    refine ⟨grown, adding, space, ?_⟩
    intro mark
    rw [counts, List.countP_map]
    congr 2
    -- All slots of the group wait, so those with a mark wait with it.
    apply List.countP_congr
    intro slot listed
    simp [Pool.waitsWith, (taken slot listed).2]

/-- Where the sets are of the tally's size nothing can fail. -/
theorem addMarks_group_of_shaped (shaped : counting.Shaped)
    (waits : ∀ i ∈ group, ∃ slot, counting.pool.slots[i]? = some slot ∧ slot.phase = .waiting) :
    ∃ grown, counting.tally.addMarks (counting.pool.setsAt group) = (grown, .ok ()) := by
  rcases addMarks_group shaped.tidy waits with ⟨-, grown, adding, -⟩ | ⟨small, -⟩
  · exact ⟨grown, adding⟩
  · exact absurd (shaped.fits.setsAt waits) small

theorem waiting_of_flushed {after : Counting} (distinct : group.Nodup)
    (waits : ∀ i ∈ group, ∃ slot, counting.pool.slots[i]? = some slot ∧ slot.phase = .waiting)
    (slots_eq : after.pool.slots = (counting.pool.changeAt group flushed).slots) :
    after.waiting + group.length = counting.waiting := by
  have inside : ∀ i ∈ group, ∃ slot, counting.pool.slots[i]? = some slot := fun i member =>
    (waits i member).imp fun _ => And.left
  have moved := @Pool.countP_changeAt counting.pool group
    (fun slot => decide (slot.phase = .waiting)) flushed (fun _ => rfl) distinct inside
  have all : (group.filterMap fun i => counting.pool.slots[i]?).countP
      (fun slot => decide (slot.phase = .waiting)) = group.length := by
    rw [List.countP_eq_length.2 fun slot listed =>
      decide_eq_true (mem_slots_of_group waits slot listed).2]
    exact Pool.length_filterMap_slots inside
  rw [waiting, slots_eq, ← all, waiting]
  exact moved

/-- A pool and its tally behind the flush of a group. -/
def merged (counting : Counting) (group : List Nat) (grown : Tally) : Counting :=
  ⟨{ counting.pool.changeAt group flushed with
      flushes := counting.pool.flushes + 1
      flushedSets := counting.pool.flushedSets + group.length }, grown⟩

theorem drains_merged {grown : Tally} (tidy : counting.Tidy) (distinct : group.Nodup)
    (waits : ∀ i ∈ group, ∃ slot, counting.pool.slots[i]? = some slot ∧ slot.phase = .waiting)
    (adding : counting.tally.addMarks (counting.pool.setsAt group) = (grown, .ok ())) :
    counting.Drains (counting.merged group grown) := by
  obtain ⟨space_eq, counts⟩ : grown.space = counting.tally.space ∧ _ := by
    rcases addMarks_group tidy waits with ⟨-, same, again, effect⟩ | ⟨-, after, failed⟩
    · cases adding.symm.trans again
      exact effect
    · cases adding.symm.trans failed
  refine ⟨space_eq, Pool.size_changeAt _, rfl, rfl, ?slot_cases, ?counted, ?flushedSets_eq⟩
  case slot_cases =>
    intro i
    dsimp only [merged]
    rw [Pool.getElem?_changeAt]
    by_cases member : i ∈ group
    · rcases waits i member with ⟨slot, found, phase⟩
      exact .inr ⟨slot, found, phase, by rw [found, Option.map_some, if_pos member]⟩
    · left
      cases counting.pool.slots[i]? <;> simp [member]
  case counted =>
    intro mark
    exact ⟨_, counts mark, Pool.countP_changeAt (fun _ => rfl) distinct fun i member =>
      (waits i member).imp fun _ => And.left⟩
  case flushedSets_eq =>
    have less := @waiting_of_flushed counting group (counting.merged group grown) distinct waits rfl
    dsimp only [merged] at less ⊢
    omega

/-- Behind the flush of a group that fits, what waits fits no better than before. -/
theorem fits_of_merged {grown : Tally} (space_eq : grown.space = counting.tally.space)
    (group_fits : ∀ marks ∈ counting.pool.setsAt group, marks.Within counting.tally.size)
    (fits : (counting.merged group grown).Fits) : counting.Fits := by
  intro slot member waits
  rcases List.getElem?_of_mem member with ⟨i, found⟩
  by_cases taken : i ∈ group
  · exact group_fits _ (List.mem_filterMap.2 ⟨i, taken, by rw [found, Option.map_some]⟩)
  · have kept : (counting.merged group grown).pool.slots[i]? = some slot := by
      rw [merged, Pool.getElem?_changeAt, found, Option.map_some, if_neg taken]
    have within := fits slot (List.mem_of_getElem? kept) waits
    rwa [merged, Tally.size_congr space_eq] at within

end Group

/-- How a flush ends: it passes a group over that is empty or too small, it counts and frees the
group, or it breaks down. -/
inductive FlushEnd (counting : Counting) (least : Nat) : Counting × Except Failure Nat → Prop where
  | passed : nextGroup counting.pool = [] ∨ (nextGroup counting.pool).length < least →
      FlushEnd counting least (counting, .ok 0)
  | merged {grown : Tally} : nextGroup counting.pool ≠ [] →
      least ≤ (nextGroup counting.pool).length →
      counting.tally.addMarks (counting.pool.setsAt (nextGroup counting.pool)) = (grown, .ok ()) →
        FlushEnd counting least
          (counting.merged (nextGroup counting.pool) grown, .ok (nextGroup counting.pool).length)
  | broken {after : Counting} {tally : Tally} {failure : Failure} :
      counting.tally.addMarks (counting.pool.setsAt (nextGroup counting.pool)) =
        (tally, .error failure) →
      FlushEnd counting least (after, .error failure)

theorem flushGroup_ends (counting : Counting) (least : Nat) :
    counting.FlushEnd least (counting.flushGroup least) := by
  rw [flushGroup]
  dsimp only
  split
  case isTrue few =>
    rw [List.isEmpty_iff] at few
    exact .passed few
  case isFalse many =>
    rw [List.isEmpty_iff, not_or, Nat.not_lt] at many
    split
    case h_1 tally failure adding => exact .broken adding
    case h_2 grown adding =>
      rw [Pool.changeAt_changeAt]
      exact .merged many.1 many.2 adding

section Ends

variable {after : Counting} {least flushed : Nat}

theorem FlushEnd.drains (ends : counting.FlushEnd least (after, .ok flushed))
    (tidy : counting.Tidy) : counting.Drains after := by
  cases ends with
  | passed => exact .refl counting
  | merged _ _ adding =>
    exact drains_merged tidy (nodup_nextGroup counting.pool) (fun _ => mem_nextGroup) adding

/-- A flush breaks down only by a mark that has no counter. -/
theorem FlushEnd.of_error {failure : Failure} (ends : counting.FlushEnd least (after, .error failure))
    (tidy : counting.Tidy) : failure = .outOfRange ∧ ¬ counting.Fits := by
  cases ends with
  | broken adding =>
    rcases addMarks_group tidy (fun _ => mem_nextGroup) with
      ⟨-, grown, added, -⟩ | ⟨small, tally, failed⟩
    · cases adding.symm.trans added
    · cases adding.symm.trans failed
      exact ⟨rfl, fun fits => small (fits.setsAt fun _ => mem_nextGroup)⟩

/-- A flush that succeeds has taken a group of at least the least size, or found none. -/
theorem FlushEnd.cases_ok (ends : counting.FlushEnd least (after, .ok flushed)) :
    after = counting ∧ flushed = 0 ∧ (min counting.pool.groupSize counting.waiting = 0 ∨
        min counting.pool.groupSize counting.waiting < least) ∨
      flushed = min counting.pool.groupSize counting.waiting ∧ 0 < flushed ∧ least ≤ flushed ∧
        after.pool.flushes = counting.pool.flushes + 1 ∧
        after.pool.flushedSets = counting.pool.flushedSets + flushed ∧
        after.waiting + flushed = counting.waiting := by
  rw [← length_nextGroup]
  cases ends with
  | passed few =>
    rw [← List.length_eq_zero_iff] at few
    exact .inl ⟨rfl, rfl, few⟩
  | merged some enough adding =>
    exact .inr ⟨rfl, List.length_pos_iff.2 some, enough, rfl, rfl,
      waiting_of_flushed (nodup_nextGroup counting.pool) (fun _ => mem_nextGroup) rfl⟩

/-- Where a set was flushed a slot is free. -/
theorem FlushEnd.exists_free (ends : counting.FlushEnd least (after, .ok flushed))
    (some : 0 < flushed) : ∃ slot ∈ after.pool.slots, slot.phase = .free := by
  cases ends with
  | passed => exact absurd some (Nat.lt_irrefl 0)
  | merged =>
    obtain ⟨i, taken⟩ := List.exists_mem_of_length_pos some
    rcases mem_nextGroup taken with ⟨slot, found, -⟩
    refine ⟨flushed slot, List.mem_of_getElem? (i := i) ?_, rfl⟩
    rw [Counting.merged, Pool.getElem?_changeAt, found, Option.map_some, if_pos taken]

/-- If what is left behind a flush fits, so did what waited before it. -/
theorem FlushEnd.fits (ends : counting.FlushEnd least (after, .ok flushed)) (tidy : counting.Tidy)
    (fits : after.Fits) : counting.Fits := by
  cases ends with
  | passed => exact fits
  | @merged grown _ _ adding =>
    rcases addMarks_group tidy (fun _ => mem_nextGroup) with
      ⟨within, same, added, space_eq, -⟩ | ⟨-, tally, failed⟩
    · cases adding.symm.trans added
      exact fits_of_merged space_eq within fits
    · cases adding.symm.trans failed

end Ends

/-- Flushing counts the first sets that wait, unless they are too few, and frees them. -/
theorem flushGroup_drains (shaped : counting.Shaped) (least : Nat) :
    ∃ after flushed, counting.flushGroup least = (after, .ok flushed) ∧ counting.Drains after ∧
      after.waiting + flushed = counting.waiting ∧
      (0 < counting.pool.groupSize → least ≤ 1 → 0 < counting.waiting →
        0 < flushed ∧ ∃ slot ∈ after.pool.slots, slot.phase = .free) := by
  have ends := counting.flushGroup_ends least
  rcases run : counting.flushGroup least with ⟨after, failure | flushed⟩
  · rw [run] at ends
    exact absurd shaped.fits (ends.of_error shaped.tidy).2
  · rw [run] at ends
    refine ⟨after, flushed, rfl, ends.drains shaped.tidy, ?_⟩
    rcases ends.cases_ok with ⟨rfl, rfl, few⟩ | ⟨taken, positive, -, -, -, less⟩
    · exact ⟨rfl, fun _ _ _ => by omega⟩
    · exact ⟨less, fun _ _ _ => ⟨positive, ends.exists_free positive⟩⟩

/-- As many groups are flushed as the sets make, the last one perhaps smaller. -/
theorem ceilDiv_of_flushed {size waiting left : Nat} (positive : 0 < size)
    (taken : left + min size waiting = waiting) (some : 0 < waiting) :
    waiting ⌈/⌉ size = 1 + left ⌈/⌉ size := by
  simp only [Nat.ceilDiv_eq_add_pred_div]
  rcases Nat.le_total size waiting with full | short
  · rw [show waiting + size - 1 = size + (left + size - 1) by omega, Nat.add_div_left _ positive,
      Nat.add_comm]
  · rw [show left + size - 1 = size - 1 by omega, Nat.div_eq_of_lt (show size - 1 < size by omega),
      show waiting + size - 1 = size + (waiting - 1) by omega, Nat.add_div_left _ positive,
      Nat.div_eq_of_lt (by omega)]

/-- Enough rounds flush everything that waits, in as few groups as there can be, or break down by a
mark that has no counter. -/
theorem flushRounds_cases (tidy : counting.Tidy) (grouped : 0 < counting.pool.groupSize)
    {rounds : Nat} (enough : counting.waiting < rounds) :
    counting.Fits ∧
        (∃ after, counting.flushRounds rounds = (after, .ok counting.waiting) ∧
          counting.Drains after ∧ after.waiting = 0 ∧
          after.pool.flushes = counting.pool.flushes +
            counting.waiting ⌈/⌉ counting.pool.groupSize) ∨
      ¬ counting.Fits ∧ ∃ after, counting.flushRounds rounds = (after, .error .outOfRange) := by
  induction rounds generalizing counting with
  | zero => exact absurd enough (Nat.not_lt_zero _)
  | succ rounds ih =>
    have ends := counting.flushGroup_ends 1
    rcases flushing : counting.flushGroup 1 with ⟨after, failure | flushed⟩
    · rw [flushing] at ends
      rcases ends.of_error tidy with ⟨rfl, small⟩
      exact .inr ⟨small, after, by simp only [flushRounds, flushing]⟩
    · rw [flushing] at ends
      rcases ends.cases_ok with ⟨rfl, rfl, few⟩ | ⟨taken, positive, -, flushes, sets, less⟩
      · have none : after.waiting = 0 := by omega
        refine .inl ⟨?_, after, ?_, .refl after, none, ?_⟩
        · intro slot member waits
          exact absurd (decide_eq_true waits) (List.countP_eq_zero.1 none slot member)
        · rw [none]
          simp only [flushRounds, flushing]
        · rw [none, zero_ceilDiv, Nat.add_zero]
      · -- Every round but the last takes at least one set.
        have drains := ends.drains tidy
        rw [taken] at less
        have groups := ceilDiv_of_flushed grouped less (by omega)
        have next := @ih after (drains.tidy tidy) (by rwa [drains.groupSize_eq]) (by omega)
        rcases next with ⟨fits, final, run, behind, none, more⟩ | ⟨small, final, run⟩
        · refine .inl ⟨ends.fits tidy fits, final, ?_, drains.trans behind, none, ?_⟩
          · rcases Nat.exists_eq_add_of_lt positive with ⟨count, count_eq⟩
            subst count_eq
            simp only [flushRounds, flushing, run, Except.map]
            congr 2
            omega
          · rw [more, flushes, drains.groupSize_eq, groups, Nat.add_assoc]
        · refine .inr ⟨fun fits => small (drains.fits fits), final, ?_⟩
          rcases Nat.exists_eq_add_of_lt positive with ⟨count, count_eq⟩
          subst count_eq
          simp only [flushRounds, flushing, run, Except.map]

theorem waiting_lt_rounds (counting : Counting) : counting.waiting < counting.pool.size + 1 :=
  Nat.lt_succ_of_le List.countP_le_length

/-! ## Closing -/

/-- A slot out of use, with the marks that it has. -/
def retired (slot : Slot) : Slot :=
  { slot with phase := .retired }

/-- Retiring goes up to the first slot that is not free, which it names. -/
theorem retire_cases (slots : List Slot) (i : Nat) :
    (∀ slot ∈ slots, slot.phase = .free) ∧ retire i slots = (slots.map retired, .ok ()) ∨
      ∃ free slot behind, slots = free ++ slot :: behind ∧ (∀ each ∈ free, each.phase = .free) ∧
        slot.phase ≠ .free ∧ retire i slots = (free.map retired ++ slot :: behind,
          .error (.flushProtocol (i + free.length) slot.phase)) := by
  induction slots generalizing i with
  | nil => exact .inl ⟨fun _ member => absurd member List.not_mem_nil, rfl⟩
  | cons slot rest ih =>
    by_cases free : slot.phase = .free
    · rcases ih (i + 1) with ⟨all, run⟩ | ⟨before, other, behind, rfl, all, taken, run⟩
      · exact .inl ⟨List.forall_mem_cons.2 ⟨free, all⟩, by rw [retire, if_pos free, run]; rfl⟩
      · refine .inr ⟨slot :: before, other, behind, rfl, List.forall_mem_cons.2 ⟨free, all⟩, taken, ?_⟩
        rw [retire, if_pos free, run, List.length_cons, Nat.add_assoc, Nat.add_comm 1]
        rfl
    · exact .inr ⟨[], slot, rest, rfl, fun _ member => absurd member List.not_mem_nil, free,
        by rw [retire, if_neg free]; rfl⟩

/-- Retiring changes the phase of slots that are free, and nothing else. -/
theorem getElem?_retire (slots : List Slot) (i j : Nat) :
    (retire i slots).1[j]? = slots[j]? ∨
      ∃ marks, slots[j]? = some ⟨.free, marks⟩ ∧ (retire i slots).1[j]? = some ⟨.retired, marks⟩ := by
  induction slots generalizing i j with
  | nil => exact .inl rfl
  | cons slot rest ih =>
    rw [retire]
    split
    case isTrue free =>
      cases j with
      | zero => exact .inr ⟨slot.marks, by rw [← free]; rfl, rfl⟩
      | succ j => exact ih (i + 1) j
    case isFalse => exact .inl rfl

theorem countP_retire {p : Slot → Bool} (blind : ∀ marks, p ⟨.retired, marks⟩ = p ⟨.free, marks⟩)
    (slots : List Slot) (i : Nat) : (retire i slots).1.countP p = slots.countP p := by
  induction slots generalizing i with
  | nil => rfl
  | cons slot rest ih =>
    rw [retire]
    split
    case isTrue free =>
      have same : p { slot with phase := .retired } = p slot := by
        rw [blind, ← free]
      rw [List.countP_cons, List.countP_cons, ih, same]
    case isFalse => rfl

/-- Closing flushes everything that waits, in as few groups as there can be, and then retires slots,
or it breaks down by a mark that has no counter. -/
theorem close_cases (tidy : counting.Tidy) (grouped : 0 < counting.pool.groupSize) :
    counting.Fits ∧
        (∃ after, counting.Drains after ∧ after.waiting = 0 ∧
          after.pool.flushes = counting.pool.flushes +
            counting.waiting ⌈/⌉ counting.pool.groupSize ∧
          counting.close =
            (⟨{ after.pool with slots := (retire 0 after.pool.slots).1 }, after.tally⟩,
              (retire 0 after.pool.slots).2.map fun () => counting.waiting)) ∨
      ¬ counting.Fits ∧ ∃ after, counting.close = (after, .error .outOfRange) := by
  refine (flushRounds_cases tidy grouped counting.waiting_lt_rounds).imp (And.imp_right ?_)
    (And.imp_right ?_)
  · rintro ⟨after, run, drains, none, flushes⟩
    exact ⟨after, drains, none, flushes, by simp only [close, run]⟩
  · rintro ⟨after, run⟩
    exact ⟨after, by simp only [close, run]⟩

/-- Behind the flushes, closing fails only by a slot that is not free. -/
theorem retire_ne_outOfRange (slots : List Slot) (i flushed : Nat) :
    ((retire i slots).2.map fun () => flushed) ≠ .error .outOfRange := by
  rcases retire_cases slots i with ⟨-, run⟩ | ⟨_, _, _, -, -, -, run⟩ <;>
  · rw [run]
    simp [Except.map]

theorem close_drains (shaped : counting.Shaped) (grouped : 0 < counting.pool.groupSize) :
    ∃ after flushed, counting.Drains after ∧ after.waiting = 0 ∧
      counting.close =
        (⟨{ after.pool with slots := (retire 0 after.pool.slots).1 }, after.tally⟩,
          (retire 0 after.pool.slots).2.map fun () => flushed) := by
  rcases close_cases shaped.tidy grouped with ⟨-, after, drains, none, -, closing⟩ | ⟨small, -⟩
  · exact ⟨after, _, drains, none, closing⟩
  · exact absurd shaped.fits small

/-- Once a pool is closed all sets that it received are flushed. -/
theorem flushedSets_of_close {closed : Counting} {flushed : Nat} (shaped : counting.Shaped)
    (grouped : 0 < counting.pool.groupSize) (closes : counting.close = (closed, .ok flushed)) :
    closed.pool.flushedSets = counting.pool.flushedSets + counting.waiting := by
  obtain ⟨after, count, drains, none, closing⟩ := close_drains shaped grouped
  have same := drains.flushedSets_eq
  rw [none, Nat.add_zero] at same
  obtain rfl := congrArg Prod.fst (closes.symm.trans closing)
  exact same

/-- A pool of which every slot is free or waits is closed, and all that waited is then counted. -/
theorem close_eq_ok_of_idle (shaped : counting.Shaped) (grouped : 0 < counting.pool.groupSize)
    (idle : ∀ slot ∈ counting.pool.slots, slot.phase = .free ∨ slot.phase = .waiting) :
    ∃ closed flushed, counting.close = (closed, .ok flushed) ∧
      closed.tally.space = counting.tally.space ∧
      ∀ mark, closed.tally.count mark =
        counting.tally.count mark + (counting.pool.waitingWith mark).toUInt32 := by
  obtain ⟨after, flushed, drains, none, closing⟩ := close_drains shaped grouped
  have still := drains.forall_slots (p := fun slot => slot.phase = .free ∨ slot.phase = .waiting)
    idle fun _ _ _ => .inl rfl
  have free : ∀ slot ∈ after.pool.slots, slot.phase = .free := by
    intro slot member
    rcases still slot member with free | waits
    · exact free
    · exact absurd (decide_eq_true waits) (List.countP_eq_zero.1 none slot member)
  rcases retire_cases after.pool.slots 0 with
    ⟨-, retiring⟩ | ⟨before, slot, behind, slots_eq, -, taken, -⟩
  case inr => exact absurd (free slot (by rw [slots_eq]; simp)) taken
  rw [retiring] at closing
  refine ⟨_, flushed, closing, drains.space_eq, ?_⟩
  intro mark
  rcases drains.counted mark with ⟨moved, grown, less⟩
  rw [waitingWith_eq_zero none mark, Nat.zero_add] at less
  rw [← less]
  exact grown

end Counting

end GramCensus
