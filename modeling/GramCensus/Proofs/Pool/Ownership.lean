import GramCensus.Proofs.Sums
import GramCensus.Proofs.Pool.Flushing
import GramCensus.Pool.Threads

/-!
# Who owns a slot

A slot that is leased or being flushed is in the hands of one thread, and any other slot is in the
hands of none (`Crew.Sound.owned`). What a thread knows about its slots between two of its steps
(`Thread.Fits`) therefore stays true whatever the other threads do, who change only slots of their own
and slots that nobody has (`Crew.Sound.advance`).
-/

namespace GramCensus

/-- The phases in which a slot is in the hands of a thread. -/
def SlotPhase.isHeld : SlotPhase → Bool
  | .leased | .flushing => true
  | _ => false

namespace Task

/-- The slots that a flush has taken and not yet put back. -/
def group : Task → List Nat
  | .gathering _ _ group => group
  | .lettingGo group => group
  | .adding group _ => group
  | .clearing cleared left => cleared ++ left
  | .freeing _ left => left
  | _ => []

/-- Those of them that it has cleared. -/
def cleared : Task → List Nat
  | .clearing cleared _ => cleared
  | .freeing _ left => left
  | _ => []

/-- Whether a mark of its sets is still to be added to the tally. -/
def owes (task : Task) (marks : MarkSet) (mark : Nat) : Bool :=
  match task with
  | .gathering .. => marks.has mark
  | .lettingGo _ => marks.has mark
  | .adding _ words => marks.has mark && decide (mark / 64 ∈ words)
  | _ => false

end Task

/-- The slots that a thread has in a phase. -/
def Thread.owns (thread : Thread) : SlotPhase → List Nat
  | .leased => thread.leases
  | .flushing => thread.task.group
  | _ => []

namespace SharedPool

variable {shared before after : SharedPool} {i : Nat}

/-! ## The record of a slot -/

/-- The number of times that a mark of a slot was added to the tally. -/
def addedFrom (shared : SharedPool) (i mark : Nat) : Nat :=
  shared.added.countP fun (j, word, bits) =>
    decide (j = i) && (decide (word = mark / 64) && wordHas bits (mark % 64))

/-- The number of times that a slot was given back with a mark. -/
def returnedFrom (shared : SharedPool) (i mark : Nat) : Nat :=
  shared.returned.countP fun (j, marks) => decide (j = i) && marks.has mark

/-- The number of times that a mark was added to the tally. -/
def addedWith (shared : SharedPool) (mark : Nat) : Nat :=
  shared.added.countP fun (_, word, bits) =>
    decide (word = mark / 64) && wordHas bits (mark % 64)

/-- The number of mark sets that were given back with a mark. -/
def returnedWith (shared : SharedPool) (mark : Nat) : Nat :=
  shared.returned.countP fun (_, marks) => marks.has mark

/-- Whether a slot waits with a mark, as a number. -/
def pending (shared : SharedPool) (i mark : Nat) : Nat :=
  ((shared.slot? i).any (Pool.waitsWith mark)).toNat

/-- Whether a slot is in the hands of a thread in a phase, as a number. -/
def held (shared : SharedPool) (i : Nat) (phase : SlotPhase) : Nat :=
  (phase.isHeld && decide (shared.phase? i = some phase)).toNat

theorem phase?_eq_some_iff {phase : SlotPhase} :
    shared.phase? i = some phase ↔ ∃ marks, shared.slot? i = some ⟨phase, marks⟩ := by
  rw [phase?, Option.map_eq_some_iff]
  constructor
  · rintro ⟨⟨_, marks⟩, found, rfl⟩
    exact ⟨marks, found⟩
  · rintro ⟨marks, found⟩
    exact ⟨_, found, rfl⟩

/-- A slot, and what the record says of it, are what they were. -/
structure Same (before after : SharedPool) (i : Nat) : Prop where
  slot_eq : after.slot? i = before.slot? i
  added_eq : ∀ mark, after.addedFrom i mark = before.addedFrom i mark
  returned_eq : ∀ mark, after.returnedFrom i mark = before.returnedFrom i mark

namespace Same

theorem refl (shared : SharedPool) (i : Nat) : shared.Same shared i :=
  ⟨rfl, fun _ => rfl, fun _ => rfl⟩

theorem phase_eq (same : before.Same after i) : after.phase? i = before.phase? i := by
  rw [phase?, same.slot_eq, phase?]

theorem held_eq (same : before.Same after i) (phase : SlotPhase) :
    after.held i phase = before.held i phase := by
  rw [held, same.phase_eq, held]

end Same

end SharedPool

/-- What holds of a slot of `words` words at any time. -/
structure Slot.InUse (words : Nat) (slot : Slot) : Prop extends slot.Shaped words where
  clean : slot.phase = .free → slot.marks.hasMarks = false
  used : slot.phase ≠ .retired

/-- What a flush knows about a slot that it has taken: nobody else changes it, and what it was given
back with and is not added to the tally yet, the flush still owes. -/
def Task.Holds (task : Task) (shared : SharedPool) (i : Nat) : Prop :=
  ∃ marks, shared.slot? i = some ⟨.flushing, marks⟩ ∧
    (∀ mark, shared.addedFrom i mark + (task.owes marks mark).toNat = shared.returnedFrom i mark) ∧
    (i ∈ task.cleared → marks.hasMarks = false)

/-- What a thread knows besides. No flush ever finds a slot of its group in a wrong phase, nor breaks
down. -/
def Thread.Ready (thread : Thread) (shared : SharedPool) : Prop :=
  match thread.task with
  | .givingBack i marked => i ∈ thread.leases ∧
      ∃ marks, shared.slot? i = some ⟨.leased, marks⟩ ∧ marks.hasMarks = marked
  | .adding _ words => words.Nodup ∧ ∀ word ∈ words, word < shared.counting.tally.words
  | .violated .. => False
  | .broken _ => False
  | _ => True

/-- What a thread knows between two of its steps. -/
structure Thread.Fits (thread : Thread) (shared : SharedPool) : Prop where
  holds : ∀ i ∈ thread.task.group, thread.task.Holds shared i
  ready : thread.Ready shared

/-- What a step of a thread may do to a slot. If the slot is in anyone's hands it is in those of the
thread, and if no flush has it behind the step then what it was given back with was added to the
tally, unless it waits. -/
structure Thread.Changes (thread : Thread) (before after : SharedPool) (i : Nat) : Prop where
  mine : ∀ phase, phase.isHeld = true → before.phase? i = some phase → i ∈ thread.owns phase
  inUse : ∀ slot, after.slot? i = some slot → slot.InUse before.counting.tally.words
  rests : after.phase? i ≠ some .flushing → ∀ mark,
    after.addedFrom i mark + after.pending i mark = after.returnedFrom i mark

namespace Task

variable {before after : SharedPool} {task next : Task} {i : Nat}

/-- What a flush knows about a slot it knows as long as the slot stays what it is. -/
theorem Holds.same (holds : task.Holds before i) (same : before.Same after i)
    (owes_eq : next.owes = task.owes) (cleared : i ∈ next.cleared → i ∈ task.cleared) :
    next.Holds after i := by
  rcases holds with ⟨marks, found, owed, clean⟩
  refine ⟨marks, same.slot_eq.trans found, ?_, fun member => clean (cleared member)⟩
  intro mark
  rw [same.added_eq, same.returned_eq, owes_eq]
  exact owed mark

end Task

/-! ## Crews -/

namespace Crew

variable {crew : Crew} {shared : SharedPool} {thread next : Thread} {t i : Nat}

/-- The number of threads that have a slot in a phase. -/
def owners (crew : Crew) (i : Nat) (phase : SlotPhase) : Nat :=
  (crew.threads.map fun thread => (thread.owns phase).count i).sum

/-- What holds between any two steps. -/
structure Sound (crew : Crew) : Prop where
  grouped : 0 < crew.shared.counting.pool.groupSize
  inUse : ∀ i slot, crew.shared.slot? i = some slot → slot.InUse crew.shared.counting.tally.words
  owned : ∀ i phase, crew.owners i phase = crew.shared.held i phase
  fits : ∀ thread ∈ crew.threads, thread.Fits crew.shared
  rests : ∀ i, crew.shared.phase? i ≠ some .flushing → ∀ mark,
    crew.shared.addedFrom i mark + crew.shared.pending i mark = crew.shared.returnedFrom i mark
  counted : ∀ mark, crew.shared.counting.tally.count mark = (crew.shared.addedWith mark).toUInt32

namespace Sound

/-- No thread has a slot twice, and a slot that it has is in the phase that it has it in. -/
theorem count_le (sound : crew.Sound) (found : crew.threads[t]? = some thread) (phase : SlotPhase)
    (i : Nat) : (thread.owns phase).count i ≤ crew.shared.held i phase := by
  rw [← sound.owned]
  exact @le_sum_map _ (fun thread : Thread => (thread.owns phase).count i) _ t thread found

theorem held_of_mem (sound : crew.Sound) (found : crew.threads[t]? = some thread)
    {phase : SlotPhase} (member : i ∈ thread.owns phase) :
    phase.isHeld = true ∧ crew.shared.phase? i = some phase := by
  have few := sound.count_le found phase i
  have positive := List.count_pos_iff.2 member
  rw [SharedPool.held] at few
  cases both : phase.isHeld && decide (crew.shared.phase? i = some phase) with
  | true => simpa using both
  | false =>
    rw [both] at few
    exact absurd few (Nat.not_le_of_gt positive)

theorem nodup_owns (sound : crew.Sound) (found : crew.threads[t]? = some thread)
    (phase : SlotPhase) : (thread.owns phase).Nodup := by
  rw [List.nodup_iff_count_le_one]
  intro i
  exact Nat.le_trans (sound.count_le found phase i) (Bool.toNat_le _)

/-- Two threads do not have one slot. -/
theorem not_mem_of_mem (sound : crew.Sound) (found : crew.threads[t]? = some thread) {u : Nat}
    {other : Thread} (second : crew.threads[u]? = some other) (different : u ≠ t)
    {phase : SlotPhase} (member : i ∈ thread.owns phase) : i ∉ other.owns phase := by
  intro both
  have two := @add_le_sum_map _ (fun thread : Thread => (thread.owns phase).count i) _ t thread u
    other found second different
  have one : crew.owners i phase ≤ 1 := by
    rw [sound.owned]
    exact Bool.toNat_le _
  have first := List.count_pos_iff.2 member
  have last := List.count_pos_iff.2 both
  rw [owners] at one
  omega

/-- A step of one thread keeps what holds of the crew, if it changes the thread's own slots and slots
that nobody has, and leaves the thread with what it has to know. -/
theorem advance (sound : crew.Sound) (found : crew.threads[t]? = some thread)
    (space_eq : shared.counting.tally.space = crew.shared.counting.tally.space)
    (groupSize_eq : shared.counting.pool.groupSize = crew.shared.counting.pool.groupSize)
    (slots : ∀ i, crew.shared.Same shared i ∨ thread.Changes crew.shared shared i)
    (balance : ∀ phase i, (next.owns phase).count i + crew.shared.held i phase =
      (thread.owns phase).count i + shared.held i phase)
    (fits : next.Fits shared)
    (counted : ∀ mark, shared.counting.tally.count mark = (shared.addedWith mark).toUInt32) :
    Sound ⟨shared, crew.threads.set t next⟩ := by
  have words_eq := Tally.words_congr space_eq
  refine ⟨?grouped, ?inUse, ?owned, ?fits, ?rests, counted⟩
  case grouped =>
    rw [groupSize_eq]
    exact sound.grouped
  case inUse =>
    intro i slot place
    rw [words_eq]
    rcases slots i with same | changes
    · exact sound.inUse i slot (same.slot_eq.symm.trans place)
    · exact changes.inUse slot place
  case owned =>
    intro i phase
    have total := @sum_map_set _ (fun thread : Thread => (thread.owns phase).count i)
      (fun thread : Thread => (thread.owns phase).count i) _ t thread next found fun _ _ _ _ => rfl
    have before := sound.owned i phase
    have step := balance phase i
    rw [owners] at before ⊢
    dsimp only at total ⊢
    omega
  case fits =>
    intro other member
    rcases List.getElem?_of_mem member with ⟨u, place⟩
    by_cases own : u = t
    · subst own
      rw [List.getElem?_set_self (List.getElem?_eq_some_iff.1 found).1] at place
      cases place
      exact fits
    · rw [List.getElem?_set_ne (Ne.symm own)] at place
      have old := sound.fits other (List.mem_of_getElem? place)
      -- What another thread has, this one has not, and so it has left it alone.
      have untouched : ∀ phase, ∀ i ∈ other.owns phase, crew.shared.Same shared i := by
        intro phase i member
        rcases slots i with same | changes
        · exact same
        · rcases sound.held_of_mem place member with ⟨isHeld, inPhase⟩
          exact absurd member
            (sound.not_mem_of_mem found place own (changes.mine phase isHeld inPhase))
      refine ⟨fun i member => (old.holds i member).same (untouched .flushing i member) rfl id, ?_⟩
      have ready := old.ready
      rw [Thread.Ready] at ready ⊢
      split at ready
      case h_1 i marked _ =>
        rcases ready with ⟨member, marks, leased, marked⟩
        exact ⟨member, marks, (untouched .leased i member).slot_eq.trans leased, marked⟩
      case h_2 =>
        rw [words_eq]
        exact ready
      all_goals exact ready
  case rests =>
    intro i rests mark
    rcases slots i with same | changes
    · rw [same.added_eq, same.returned_eq, SharedPool.pending, same.slot_eq,
        ← sound.rests i (by rwa [← same.phase_eq]) mark, SharedPool.pending]
    · exact changes.rests rests mark

end Sound

end Crew

end GramCensus
