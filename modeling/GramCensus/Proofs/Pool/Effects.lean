import GramCensus.Proofs.Pool.Crew

/-!
# What the steps of a thread come to

A step of a flush changes no lease, neither one of its thread nor one of another, and gives nothing
back (`Crew.Sound.flushes`). A step of a lease takes a clean mark set or nothing (`Crew.Sound.seeking`),
and one of a return puts the marks of a leased set on record (`Crew.Sound.returning`). So a mark set
that is leased is changed by its thread only, and only on request.
-/

namespace GramCensus

/-- Whether a thread is idle or at a flush. -/
def Task.isFlush : Task → Bool
  | .leasing _ | .givingBack .. => false
  | _ => true

namespace Thread

variable {shared : SharedPool} {thread : Thread} {task : Task}

/-- What a step leaves alone that begins and ends no lease. -/
structure Spares (shared : SharedPool) (thread : Thread) (outcome : SharedPool × Thread) : Prop where
  leases_eq : outcome.2.leases = thread.leases
  returned_eq : outcome.1.returned = shared.returned
  space_eq : outcome.1.counting.tally.space = shared.counting.tally.space
  slot?_eq : ∀ i, shared.phase? i = some .leased → outcome.1.slot? i = shared.slot? i

/-- A thread does nothing or takes a step. -/
def Advances (shared : SharedPool) (thread : Thread) (outcome : SharedPool × Thread) : Prop :=
  outcome = (shared, thread) ∨ ∃ request, outcome = thread.step shared request

theorem spares_turnTo (shared : SharedPool) (thread : Thread) (task : Task) :
    thread.Spares shared (shared, thread.turnTo task) :=
  ⟨rfl, rfl, rfl, fun _ _ => rfl⟩

theorem spares_changeSlot {place : Nat} {phase : SlotPhase}
    (found : shared.phase? place = some phase) (other : phase ≠ .leased) (change : Slot → Slot)
    (task : Task) : thread.Spares shared (shared.changeSlot place change, thread.turnTo task) := by
  refine ⟨rfl, rfl, rfl, ?_⟩
  intro i leased
  refine SharedPool.slot?_changeSlot_of_ne ?_ change
  rintro rfl
  exact other (Option.some.inj (found.symm.trans leased))

end Thread

namespace Crew

open SharedPool (exchange_eq_some exchange_eq_of_phase phase?_eq_some_iff)

variable {crew : Crew} {thread : Thread} {t i : Nat} {leases : List Nat}

namespace Sound

theorem advances (sound : crew.Sound) (found : crew.threads[t]? = some thread)
    {outcome : SharedPool × Thread} (advances : thread.Advances crew.shared outcome) :
    (crew.behind t outcome).Sound := by
  rcases advances with rfl | ⟨request, rfl⟩
  · exact sound.stays found rfl rfl (sound.fits thread (List.mem_of_getElem? found))
  · exact sound.step found request

/-- A thread that flushes goes on with its flush, and leaves all leases alone. -/
theorem flushes (sound : crew.Sound) (found : crew.threads[t]? = some thread)
    (isFlush : thread.task.isFlush = true) (least : Nat) :
    thread.Spares crew.shared (thread.step crew.shared (.flush least)) ∧
      (thread.step crew.shared (.flush least)).2.task.isFlush = true := by
  have flushing := (sound.in_phase (List.mem_of_getElem? found)).2
  have turns := fun task => Thread.spares_turnTo crew.shared thread task
  rw [Thread.step.eq_def]
  cases task : thread.task with
  | idle => exact ⟨turns _, rfl⟩
  | leasing => simp [task, Task.isFlush] at isFlush
  | givingBack => simp [task, Task.isFlush] at isFlush
  | gathering least next group =>
    dsimp only
    split
    case isTrue => split <;> exact ⟨turns _, rfl⟩
    case isFalse =>
      split
      case h_1 exchanged =>
        rcases exchange_eq_some exchanged with ⟨marks, waits, rfl⟩
        exact ⟨Thread.spares_changeSlot (phase?_eq_some_iff.2 ⟨marks, waits⟩) (by simp) _ _, rfl⟩
      case h_2 => exact ⟨turns _, rfl⟩
  | lettingGo group =>
    cases group with
    | nil => exact ⟨turns _, rfl⟩
    | cons i rest =>
      have phase := flushing i (by rw [task]; exact List.mem_cons_self)
      simp only [exchange_eq_of_phase phase]
      exact ⟨Thread.spares_changeSlot phase (by simp) _ _, rfl⟩
  | adding group words =>
    cases words with
    | nil => exact ⟨turns _, rfl⟩
    | cons word rest =>
      have ready := (sound.fits _ (List.mem_of_getElem? found)).ready
      rw [Thread.Ready, task] at ready
      obtain ⟨grown, adding, space_eq, -⟩ := Tally.addWord_eq_ok (ready.2 word List.mem_cons_self)
        ((crew.shared.setsAt group).map fun entry => entry.2.word word)
      simp only [adding]
      exact ⟨⟨rfl, rfl, space_eq, fun _ _ => rfl⟩, rfl⟩
  | clearing cleared left =>
    cases left with
    | nil => exact ⟨turns _, rfl⟩
    | cons i rest =>
      have phase := flushing i (by rw [task]; exact List.mem_append_right _ List.mem_cons_self)
      exact ⟨Thread.spares_changeSlot phase (by simp) _ _, rfl⟩
  | freeing size left =>
    cases left with
    | nil => exact ⟨⟨rfl, rfl, rfl, fun _ _ => rfl⟩, rfl⟩
    | cons i rest =>
      have phase := flushing i (by rw [task]; exact List.mem_cons_self)
      simp only [exchange_eq_of_phase phase]
      exact ⟨Thread.spares_changeSlot phase (by simp) _ _, rfl⟩
  | violated => exact ⟨⟨rfl, rfl, rfl, fun _ _ => rfl⟩, by simp [task, Task.isFlush]⟩
  | broken => exact ⟨⟨rfl, rfl, rfl, fun _ _ => rfl⟩, by simp [task, Task.isFlush]⟩

/-- A thread that looks for a mark set finds a clean one, or has found none so far. -/
theorem seeking (sound : crew.Sound) (leases : List Nat) (next : Nat) (request : PoolRequest) :
    (∃ task, Thread.step crew.shared ⟨leases, .leasing next⟩ request =
        (crew.shared, ⟨leases, task⟩) ∧ (task = .idle ∨ ∃ later, task = .leasing later)) ∨
      ∃ i marks, crew.shared.slot? i = some ⟨.free, marks⟩ ∧
        (∀ sign : Sign, sign.on marks = false) ∧
        Thread.step crew.shared ⟨leases, .leasing next⟩ request =
          (crew.shared.changeSlot i fun slot => { slot with phase := .leased },
            ⟨i :: leases, .idle⟩) := by
  rw [Thread.step]
  dsimp only
  split
  case isTrue => exact .inl ⟨.idle, rfl, .inl rfl⟩
  case isFalse =>
    split
    case h_1 exchanged =>
      rcases exchange_eq_some exchanged with ⟨marks, free, rfl⟩
      have inUse := sound.inUse _ _ free
      exact .inr ⟨next, marks, free, fun sign => Sign.on_eq_false inUse.tidy (inUse.clean rfl), rfl⟩
    case h_2 => exact .inl ⟨.leasing (next + 1), rfl, .inr ⟨_, rfl⟩⟩

/-- A mark set that is given back is put on record with the marks it has. -/
theorem returning (sound : crew.Sound) {marked : Bool}
    (found : crew.threads[t]? = some ⟨leases, .givingBack i marked⟩) (request : PoolRequest) :
    ∃ marks after, crew.shared.slot? i = some ⟨.leased, marks⟩ ∧ i ∈ leases ∧
      Thread.step crew.shared ⟨leases, .givingBack i marked⟩ request =
        (after, ⟨leases.erase i, .idle⟩) ∧
      after.returned = crew.shared.returned ++ [(i, marks)] ∧
      after.counting.tally.space = crew.shared.counting.tally.space ∧
      ∀ j, j ≠ i → after.slot? j = crew.shared.slot? j := by
  rcases (sound.fits _ (List.mem_of_getElem? found)).ready with ⟨member, marks, leased, -⟩
  refine ⟨marks, _, leased, member, rfl, ?_, rfl, ?_⟩
  · rw [SharedPool.setsAt_cons, leased]
    rfl
  · exact fun j other => SharedPool.slot?_changeSlot_of_ne other _

end Sound

end Crew

end GramCensus
