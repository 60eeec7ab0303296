import GramCensus.Proofs.Pool.Ownership

/-!
# Every interleaving

Each step of a thread, of a lease as of a flush, keeps what holds of a crew (`Crew.Sound.step`), and so
does any schedule (`Crew.Sound.run`). There is a lemma for every kind of task; most of them are cases
of a step that changes one slot (`Crew.Sound.moves`), mostly its phase alone
(`Crew.Sound.exchanges`), or none (`Crew.Sound.stays`).
-/

namespace GramCensus

namespace SharedPool

variable {shared : SharedPool} {i j : Nat} {slot : Slot}

/-! ## Changing one slot -/

theorem slot?_changeSlot (change : Slot → Slot) :
    (shared.changeSlot i change).slot? j =
      (shared.slot? j).map fun slot => if j = i then change slot else slot := by
  rw [slot?, changeSlot, Pool.getElem?_changeAt, slot?]
  simp only [List.mem_singleton]

theorem slot?_changeSlot_self (found : shared.slot? i = some slot) (change : Slot → Slot) :
    (shared.changeSlot i change).slot? i = some (change slot) := by
  rw [slot?_changeSlot, found, Option.map_some, if_pos rfl]

theorem slot?_changeSlot_of_ne (other : j ≠ i) (change : Slot → Slot) :
    (shared.changeSlot i change).slot? j = shared.slot? j := by
  rw [slot?_changeSlot]
  cases shared.slot? j <;> simp [other]

theorem same_changeSlot (other : j ≠ i) (change : Slot → Slot) :
    shared.Same (shared.changeSlot i change) j :=
  ⟨slot?_changeSlot_of_ne other change, fun _ => rfl, fun _ => rfl⟩

theorem exchange_eq_some {expected desired : SlotPhase} {after : SharedPool}
    (exchanged : shared.exchange i expected desired = some after) :
    ∃ marks, shared.slot? i = some ⟨expected, marks⟩ ∧
      after = shared.changeSlot i fun slot => { slot with phase := desired } := by
  rw [exchange] at exchanged
  split at exchanged
  case isTrue found =>
    cases exchanged
    rcases phase?_eq_some_iff.1 found with ⟨marks, found⟩
    exact ⟨marks, found, rfl⟩
  case isFalse => cases exchanged

theorem exchange_eq_of_phase {expected : SlotPhase} (found : shared.phase? i = some expected)
    (desired : SlotPhase) : shared.exchange i expected desired =
      some (shared.changeSlot i fun slot => { slot with phase := desired }) := by
  rw [exchange, if_pos found]

/-! ## The sets of a group -/

theorem mem_setsAt_iff {group : List Nat} {marks : MarkSet} :
    (i, marks) ∈ shared.setsAt group ↔
      i ∈ group ∧ ∃ phase, shared.slot? i = some ⟨phase, marks⟩ := by
  rw [setsAt, List.mem_filterMap]
  constructor
  · rintro ⟨j, member, found⟩
    rcases Option.map_eq_some_iff.1 found with ⟨⟨phase, _⟩, place, same⟩
    cases same
    exact ⟨member, phase, place⟩
  · rintro ⟨member, phase, place⟩
    exact ⟨i, member, by rw [place, Option.map_some]⟩

theorem setsAt_cons (first : Nat) (rest : List Nat) :
    shared.setsAt (first :: rest) =
      ((shared.slot? first).map fun slot => (first, slot.marks)).toList ++ shared.setsAt rest := by
  rw [setsAt, List.filterMap_cons]
  cases shared.slot? first <;> rfl

/-- A slot stands once among the sets of a group of different slots. -/
theorem countP_setsAt {group : List Nat} (distinct : group.Nodup) (p : MarkSet → Bool) (i : Nat) :
    ((shared.setsAt group).countP fun (j, marks) => decide (j = i) && p marks) =
      (decide (i ∈ group) && (shared.slot? i).any fun slot => p slot.marks).toNat := by
  induction group with
  | nil => rfl
  | cons first rest ih =>
    rcases List.nodup_cons.1 distinct with ⟨new, distinct⟩
    rw [setsAt_cons, List.countP_append, ih distinct]
    by_cases same : first = i
    · subst same
      cases shared.slot? first with
      | none => simp
      | some slot => cases marked : p slot.marks <;> simp [new, marked]
    · have other : i ≠ first := Ne.symm same
      cases shared.slot? first <;> simp [same, other]

/-- What a word of the sets of a group adds to the record of a slot. -/
theorem addedFrom_append {group : List Nat} (distinct : group.Nodup) (word i mark : Nat) :
    (shared.added ++ (shared.setsAt group).map fun ((j, marks) : Nat × MarkSet) =>
        (j, word, marks.word word)).countP (fun (j, word, bits) =>
          decide (j = i) && (decide (word = mark / 64) && wordHas bits (mark % 64))) =
      shared.addedFrom i mark + (decide (i ∈ group) && (shared.slot? i).any fun slot =>
        decide (word = mark / 64) && slot.marks.has mark).toNat := by
  have same : ∀ marks : MarkSet, (decide (word = mark / 64) && marks.has mark) =
      (decide (word = mark / 64) && wordHas (marks.word word) (mark % 64)) := by
    intro marks
    by_cases inside : word = mark / 64
    · rw [inside, MarkSet.has]
    · simp [inside]
  simp only [same]
  rw [List.countP_append, List.countP_map, ← countP_setsAt distinct
    (fun marks => decide (word = mark / 64) && wordHas (marks.word word) (mark % 64)) i]
  rfl

end SharedPool

namespace Crew

open SharedPool (slot?_changeSlot_self slot?_changeSlot_of_ne same_changeSlot exchange_eq_some
  exchange_eq_of_phase)

variable {crew : Crew} {shared : SharedPool} {thread next : Thread} {t i : Nat}
  {leases group cleared left words : List Nat}

/-- The crew behind a step of one of its threads. -/
def behind (crew : Crew) (t : Nat) (outcome : SharedPool × Thread) : Crew :=
  ⟨outcome.1, crew.threads.set t outcome.2⟩

theorem turn_eq (found : crew.threads[t]? = some thread) (request : PoolRequest) :
    crew.turn t request = crew.behind t (thread.step crew.shared request) := by
  rw [turn, found]
  rfl

theorem count_cons_eq (i j : Nat) (rest : List Nat) :
    (i :: rest).count j = rest.count j + (decide (j = i)).toNat := by
  by_cases same : j = i
  · subst same
    rw [List.count_cons_self, decide_eq_true rfl]
    rfl
  · rw [List.count_cons_of_ne (Ne.symm same), decide_eq_false same]
    rfl

theorem count_erase_add (member : i ∈ group) (j : Nat) :
    (group.erase i).count j + (decide (j = i)).toNat = group.count j := by
  by_cases same : j = i
  · subst same
    have positive := List.count_pos_iff.2 member
    rw [List.count_erase_self, decide_eq_true rfl, Bool.toNat_true]
    omega
  · rw [List.count_erase_of_ne same, decide_eq_false same]
    rfl

theorem fits_idle (leases : List Nat) (shared : SharedPool) :
    Thread.Fits ⟨leases, .idle⟩ shared :=
  ⟨fun _ member => absurd member List.not_mem_nil, trivial⟩

namespace Sound

/-- What was given back is added to the tally, unless the slot waits or a flush has it. -/
theorem rests_at (sound : crew.Sound) {slot : Slot} (place : crew.shared.slot? i = some slot)
    (still : slot.phase ≠ .flushing) (mark : Nat) :
    crew.shared.addedFrom i mark + (Pool.waitsWith mark slot).toNat =
      crew.shared.returnedFrom i mark := by
  have rests := sound.rests i (by simpa [SharedPool.phase?, place] using still) mark
  rwa [SharedPool.pending, place, Option.any_some] at rests

/-! ## Kinds of steps -/

/-- A step that changes nothing but what its thread is about to do. -/
theorem stays (sound : crew.Sound) (found : crew.threads[t]? = some thread)
    (leases_eq : next.leases = thread.leases) (group_eq : next.task.group = thread.task.group)
    (fits : next.Fits crew.shared) : (crew.behind t (crew.shared, next)).Sound := by
  have owns_eq : ∀ phase, next.owns phase = thread.owns phase := by
    intro phase
    cases phase with
    | leased => exact leases_eq
    | flushing => exact group_eq
    | _ => rfl
  exact sound.advance found rfl rfl (fun i => .inl (.refl _ i)) (fun phase i => by rw [owns_eq]) fits
    sound.counted

/-- A step that changes one slot, which nobody else has, and which the thread has behind the step if
anyone has it. -/
theorem moves (sound : crew.Sound) (found : crew.threads[t]? = some thread) {before slot : Slot}
    (place : crew.shared.slot? i = some before) (changed : shared.slot? i = some slot)
    (others : ∀ j, j ≠ i → crew.shared.Same shared j)
    (tally_eq : shared.counting.tally = crew.shared.counting.tally)
    (groupSize_eq : shared.counting.pool.groupSize = crew.shared.counting.pool.groupSize)
    (added_eq : shared.added = crew.shared.added)
    (mine : before.phase.isHeld = true → i ∈ thread.owns before.phase)
    (inUse : slot.InUse crew.shared.counting.tally.words)
    (rests : slot.phase ≠ .flushing → ∀ mark, crew.shared.addedFrom i mark +
      (Pool.waitsWith mark slot).toNat = shared.returnedFrom i mark)
    (leased : ∀ j, next.leases.count j + (decide (j = i) && decide (before.phase = .leased)).toNat =
      thread.leases.count j + (decide (j = i) && decide (slot.phase = .leased)).toNat)
    (flushing : ∀ j, next.task.group.count j +
        (decide (j = i) && decide (before.phase = .flushing)).toNat =
      thread.task.group.count j + (decide (j = i) && decide (slot.phase = .flushing)).toNat)
    (fits : next.Fits shared) : (crew.behind t (shared, next)).Sound := by
  have phase_before : crew.shared.phase? i = some before.phase := by
    rw [SharedPool.phase?, place, Option.map_some]
  have phase_after : shared.phase? i = some slot.phase := by
    rw [SharedPool.phase?, changed, Option.map_some]
  refine sound.advance found (by rw [tally_eq]) groupSize_eq ?slots ?balance fits ?counted
  case slots =>
    -- Only the slot itself has to be looked at; all others are as they were.
    intro j
    by_cases same : j = i
    · subst same
      refine .inr ⟨?_, ?_, ?_⟩
      · intro phase isHeld inPhase
        cases phase_before.symm.trans inPhase
        exact mine isHeld
      · intro other again
        cases changed.symm.trans again
        exact inUse
      · intro still mark
        rw [phase_after] at still
        rw [SharedPool.addedFrom, added_eq, SharedPool.pending, changed, Option.any_some]
        exact rests (fun flushing => still (congrArg some flushing)) mark
    · exact .inl (others j same)
  case balance =>
    -- What the thread gains or loses in a phase, the slot has entered or left.
    intro phase j
    have step : (next.owns phase).count j +
          (decide (j = i) && (phase.isHeld && decide (before.phase = phase))).toNat =
        (thread.owns phase).count j +
          (decide (j = i) && (phase.isHeld && decide (slot.phase = phase))).toNat := by
      cases phase with
      | leased => exact leased j
      | flushing => exact flushing j
      | _ => simp [Thread.owns, SlotPhase.isHeld]
    by_cases same : j = i
    · subst same
      simpa only [SharedPool.held, phase_before, phase_after, decide_true, Bool.true_and,
        Option.some.injEq] using step
    · rw [(others j same).held_eq]
      simp only [same, decide_false, Bool.false_and, Bool.toNat_false, Nat.add_zero] at step
      exact congrArg (· + _) step
  case counted =>
    intro mark
    rw [tally_eq, SharedPool.addedWith, added_eq]
    exact sound.counted mark

/-- A step that moves one slot from a phase to another one. -/
theorem exchanges (sound : crew.Sound) (found : crew.threads[t]? = some thread)
    {expected desired : SlotPhase} {marks : MarkSet}
    (place : crew.shared.slot? i = some ⟨expected, marks⟩)
    (mine : expected.isHeld = true → i ∈ thread.owns expected)
    (clean : desired = .free → marks.hasMarks = false) (used : desired ≠ .retired)
    (rests : desired ≠ .flushing → ∀ mark, crew.shared.addedFrom i mark +
      (Pool.waitsWith mark ⟨desired, marks⟩).toNat = crew.shared.returnedFrom i mark)
    (leased : ∀ j, next.leases.count j + (decide (j = i) && decide (expected = .leased)).toNat =
      thread.leases.count j + (decide (j = i) && decide (desired = .leased)).toNat)
    (flushing : ∀ j, next.task.group.count j +
        (decide (j = i) && decide (expected = .flushing)).toNat =
      thread.task.group.count j + (decide (j = i) && decide (desired = .flushing)).toNat)
    (fits : next.Fits (crew.shared.changeSlot i fun slot => { slot with phase := desired })) :
    (crew.behind t
      (crew.shared.changeSlot i fun slot => { slot with phase := desired }, next)).Sound := by
  have inUse := sound.inUse i _ place
  exact sound.moves found place (slot?_changeSlot_self place _) (fun j other => same_changeSlot other _)
    rfl rfl rfl mine ⟨⟨inUse.tidy, inUse.size_eq⟩, clean, used⟩ rests leased flushing fits

/-! ## Leases -/

/-- A lease writes to its own slot. -/
theorem writes (sound : crew.Sound) (found : crew.threads[t]? = some ⟨leases, .idle⟩)
    (member : i ∈ leases) (edit : MarkSet → MarkSet)
    (size_eq : ∀ marks, (edit marks).size = marks.size)
    (tidy : ∀ marks, marks.Tidy → (edit marks).Tidy) :
    (crew.behind t (crew.shared.changeSlot i fun slot => { slot with marks := edit slot.marks },
      ⟨leases, .idle⟩)).Sound := by
  have leased := (@held_of_mem crew ⟨leases, .idle⟩ t i sound found .leased member).2
  rcases SharedPool.phase?_eq_some_iff.1 leased with ⟨marks, place⟩
  have inUse := sound.inUse i _ place
  have rests := sound.rests_at place (by simp)
  refine sound.moves found place (slot?_changeSlot_self place _) (fun j other => same_changeSlot other _)
    rfl rfl rfl (fun _ => member) ?_ ?_ (fun _ => rfl) (fun _ => rfl) (fits_idle _ _)
  · exact ⟨⟨tidy _ inUse.tidy, (size_eq marks).trans inUse.size_eq⟩, (fun free => by cases free),
      (fun used => by cases used)⟩
  · exact fun _ => rests

theorem begins (sound : crew.Sound) (found : crew.threads[t]? = some ⟨leases, .idle⟩)
    (request : PoolRequest) :
    (crew.behind t (Thread.begin crew.shared ⟨leases, .idle⟩ request)).Sound := by
  have stays : (crew.behind t (crew.shared, ⟨leases, .idle⟩)).Sound :=
    sound.stays found rfl rfl (fits_idle _ _)
  cases request with
  | lease =>
    refine sound.stays found rfl rfl ⟨?_, trivial⟩
    exact fun _ member => absurd member List.not_mem_nil
  | set i bit =>
    rw [Thread.begin]
    split
    case isTrue member =>
      refine sound.writes found member (fun marks => (marks.set bit).toOption.getD marks)
        (fun marks => ?_) fun marks tidy => ?_
      all_goals
        cases setting : marks.set bit with
        | error => first | rfl | exact tidy
        | ok changed =>
          rcases MarkSet.shape_of_set setting with ⟨size, kept⟩
          first | exact size | exact kept tidy
    case isFalse => exact stays
  | clear i =>
    rw [Thread.begin]
    split
    case isTrue member =>
      exact sound.writes found member MarkSet.clear (fun _ => rfl) fun _ => MarkSet.Tidy.clear
    case isFalse => exact stays
  | giveBack i =>
    rw [Thread.begin]
    split
    case h_1 => exact stays
    case h_2 slot place =>
      split
      case isTrue member =>
        have leased := (@held_of_mem crew ⟨leases, .idle⟩ t i sound found .leased member).2
        rcases SharedPool.phase?_eq_some_iff.1 leased with ⟨marks, again⟩
        cases place.symm.trans again
        refine sound.stays found rfl rfl ⟨?_, member, marks, again, rfl⟩
        exact fun _ member => absurd member List.not_mem_nil
      case isFalse => exact stays
  | flush least =>
    refine sound.stays found rfl rfl ⟨?_, trivial⟩
    exact fun _ member => absurd member List.not_mem_nil

theorem seeks (sound : crew.Sound) {place : Nat}
    (found : crew.threads[t]? = some ⟨leases, .leasing place⟩) (request : PoolRequest) :
    (crew.behind t (Thread.step crew.shared ⟨leases, .leasing place⟩ request)).Sound := by
  rw [Thread.step]
  dsimp only
  split
  case isTrue => exact sound.stays found rfl rfl (fits_idle _ _)
  case isFalse =>
    split
    case h_1 exchanged =>
      rcases exchange_eq_some exchanged with ⟨marks, free, rfl⟩
      have rests := sound.rests_at free (by simp)
      exact sound.exchanges found free (fun held => by cases held) (fun free => by cases free)
        (fun used => by cases used) (fun _ => rests) (fun j => by simp [count_cons_eq])
        (fun j => by simp [Task.group]) (fits_idle _ _)
    case h_2 =>
      refine sound.stays found rfl rfl ⟨?_, trivial⟩
      exact fun _ member => absurd member List.not_mem_nil

theorem givesBack (sound : crew.Sound) {marked : Bool}
    (found : crew.threads[t]? = some ⟨leases, .givingBack i marked⟩) (request : PoolRequest) :
    (crew.behind t (Thread.step crew.shared ⟨leases, .givingBack i marked⟩ request)).Sound := by
  rcases (sound.fits _ (List.mem_of_getElem? found)).ready with ⟨member, marks, leased, rfl⟩
  have inUse := sound.inUse i _ leased
  rw [Thread.step]
  dsimp only
  have logged : ∀ j mark,
      (crew.shared.returned ++ crew.shared.setsAt [i]).countP
          (fun (k, marks) => decide (k = j) && marks.has mark) =
        crew.shared.returnedFrom j mark +
          (decide (j ∈ [i]) && (crew.shared.slot? j).any fun slot => slot.marks.has mark).toNat := by
    intro j mark
    rw [List.countP_append, SharedPool.countP_setsAt (List.nodup_singleton i) (·.has mark)]
    rfl
  refine sound.moves found leased (slot?_changeSlot_self leased _) ?others rfl rfl rfl
    (fun _ => member) ?inUse ?rests ?leased ?flushing (fits_idle _ _)
  case others =>
    intro j other
    refine ⟨slot?_changeSlot_of_ne other _, fun _ => rfl, ?_⟩
    intro mark
    rw [SharedPool.returnedFrom, logged]
    simp [other]
  case inUse =>
    refine ⟨⟨inUse.tidy, inUse.size_eq⟩, ?_, ?_⟩ <;> cases marks.hasMarks <;> simp
  case rests =>
    intro _ mark
    rw [SharedPool.returnedFrom, logged, ← sound.rests_at leased (by simp) mark, leased]
    cases used : marks.hasMarks with
    | true => simp [Pool.waitsWith]
    | false =>
      -- Without marks at all the set does not have this one either.
      have none := inUse.tidy.has_of_not_hasMarks used mark
      simp [Pool.waitsWith, none]
  case leased =>
    intro j
    rw [← count_erase_add member j]
    cases marks.hasMarks <;> simp
  case flushing =>
    intro j
    cases marks.hasMarks <;> simp [Task.group]

/-! ## Flushes -/

theorem gathers (sound : crew.Sound) {least place : Nat}
    (found : crew.threads[t]? = some ⟨leases, .gathering least place group⟩) (request : PoolRequest) :
    (crew.behind t (Thread.step crew.shared ⟨leases, .gathering least place group⟩ request)).Sound := by
  have holds := (sound.fits _ (List.mem_of_getElem? found)).holds
  rw [Thread.step]
  dsimp only
  split
  case isTrue =>
    split
    case isTrue =>
      refine sound.stays found rfl rfl ⟨?_, trivial⟩
      exact fun i member => (holds i member).same (.refl _ i) rfl id
    case isFalse =>
      have tidy : ∀ marks ∈ (crew.shared.setsAt group).map (·.2),
          marks.Tidy ∧ marks.size = crew.shared.counting.tally.words := by
        intro marks member
        rcases List.mem_map.1 member with ⟨⟨i, _⟩, listed, rfl⟩
        rcases (SharedPool.mem_setsAt_iff.1 listed).2 with ⟨phase, found⟩
        have inUse := sound.inUse i _ found
        exact ⟨inUse.tidy, inUse.size_eq⟩
      refine sound.stays found rfl rfl ⟨?_,
        MarkSet.nodup_wordsOfAny _, fun _ => MarkSet.lt_of_mem_wordsOfAny tidy⟩
      intro i member
      rcases holds i member with ⟨marks, flushing, owed, -⟩
      refine ⟨marks, flushing, ?_, fun cleared => absurd cleared List.not_mem_nil⟩
      intro mark
      have listed : marks ∈ (crew.shared.setsAt group).map (·.2) :=
        List.mem_map.2 ⟨(i, marks), SharedPool.mem_setsAt_iff.2 ⟨member, _, flushing⟩, rfl⟩
      -- Every word with a mark of the group is ahead.
      have all : (marks.has mark && decide (mark / 64 ∈
          MarkSet.wordsOfAny ((crew.shared.setsAt group).map (·.2)))) = marks.has mark := by
        cases has : marks.has mark with
        | false => rfl
        | true =>
          exact decide_eq_true
            ((tidy marks listed).1.mem_wordsOfAny listed (MarkSet.word_ne_zero_of_has has))
      exact (congrArg (crew.shared.addedFrom i mark + Bool.toNat ·) all).trans (owed mark)
  case isFalse =>
    split
    case h_1 exchanged =>
      rcases exchange_eq_some exchanged with ⟨marks, waits, rfl⟩
      refine sound.exchanges found waits (fun held => by cases held) (fun free => by cases free)
        (fun used => by cases used) (fun still => absurd rfl still)
        (fun j => by simp [Thread.turnTo]) ?_ ⟨?_, trivial⟩
      · intro j
        simp [Thread.turnTo, Task.group, List.count_append, count_cons_eq]
      · intro j member
        by_cases same : j = place
        · -- As long as the slot waited it was short of these marks itself; now the flush owes them.
          subst same
          exact ⟨marks, slot?_changeSlot_self waits _, sound.rests_at waits (by simp),
            fun cleared => absurd cleared List.not_mem_nil⟩
        · have old : j ∈ group := by simpa [Thread.turnTo, Task.group, same] using member
          exact (holds j old).same (same_changeSlot same _) rfl id
    case h_2 =>
      refine sound.stays found rfl rfl ⟨?_, trivial⟩
      exact fun i member => (holds i member).same (.refl _ i) rfl id

/-- A flush has no slot twice. -/
theorem nodup_group (sound : crew.Sound) (found : crew.threads[t]? = some thread) :
    thread.task.group.Nodup :=
  sound.nodup_owns found .flushing

theorem letsGo (sound : crew.Sound) (found : crew.threads[t]? = some ⟨leases, .lettingGo group⟩)
    (request : PoolRequest) :
    (crew.behind t (Thread.step crew.shared ⟨leases, .lettingGo group⟩ request)).Sound := by
  have holds := (sound.fits _ (List.mem_of_getElem? found)).holds
  have distinct := sound.nodup_group found
  cases group with
  | nil => exact sound.stays found rfl rfl (fits_idle _ _)
  | cons i rest =>
    rcases holds i List.mem_cons_self with ⟨marks, flushing, owed, -⟩
    have new := (List.nodup_cons.1 distinct).1
    simp only [Thread.step, exchange_eq_of_phase (SharedPool.phase?_eq_some_iff.2 ⟨marks, flushing⟩)]
    refine sound.exchanges found flushing (fun _ => List.mem_cons_self) (fun free => by cases free)
      (fun used => by cases used) (fun _ => owed) (fun j => by simp [Thread.turnTo]) ?_ ⟨?_, trivial⟩
    · intro j
      simp [Thread.turnTo, Task.group, count_cons_eq]
    · intro j member
      have other : j ≠ i := fun same => new (same ▸ member)
      exact (holds j (List.mem_cons_of_mem i member)).same (same_changeSlot other _) rfl id

theorem adds (sound : crew.Sound) (found : crew.threads[t]? = some ⟨leases, .adding group words⟩)
    (request : PoolRequest) :
    (crew.behind t (Thread.step crew.shared ⟨leases, .adding group words⟩ request)).Sound := by
  rcases sound.fits _ (List.mem_of_getElem? found) with ⟨holds, different, inside⟩
  have distinct : group.Nodup := sound.nodup_group found
  cases words with
  | nil =>
    refine sound.stays found rfl rfl ⟨?_, trivial⟩
    intro i member
    refine (holds i member).same (.refl _ i) ?_ id
    funext marks mark
    simp [Thread.turnTo, Task.owes]
  | cons word rest =>
    rcases List.nodup_cons.1 different with ⟨new, different⟩
    obtain ⟨grown, adding, space_eq, counts⟩ := Tally.addWord_eq_ok (inside word List.mem_cons_self)
      ((crew.shared.setsAt group).map fun (_, marks) => marks.word word)
    simp only [Thread.step, adding]
    refine sound.advance found space_eq rfl ?slots (fun phase i => by cases phase <;> rfl)
      ⟨?holds, different, ?ready⟩ ?counted
    case slots =>
      -- No slot changes, but the record of those of the group does.
      intro j
      by_cases member : j ∈ group
      · rcases holds j member with ⟨marks, flushing, -⟩
        have phase := SharedPool.phase?_eq_some_iff.2 ⟨marks, flushing⟩
        refine .inr ⟨?_, fun slot => sound.inUse j slot, fun still => absurd phase still⟩
        intro other _ inPhase
        cases phase.symm.trans inPhase
        exact member
      · refine .inl ⟨rfl, fun mark => ?_, fun _ => rfl⟩
        rw [SharedPool.addedFrom, SharedPool.addedFrom_append distinct, decide_eq_false member]
        rfl
    case holds =>
      intro j listed
      have member : j ∈ group := listed
      rcases holds j member with ⟨marks, flushing, owed, -⟩
      refine ⟨marks, flushing, ?_, fun cleared => absurd cleared List.not_mem_nil⟩
      intro mark
      rw [SharedPool.addedFrom, SharedPool.addedFrom_append distinct, decide_eq_true member, flushing]
      refine Eq.trans ?_ (owed mark)
      simp only [Thread.turnTo, Task.owes, Option.any_some, Bool.true_and, Nat.add_assoc]
      congr 1
      -- A mark of the word was owed, and no mark of it is in the words that are left.
      cases marks.has mark with
      | false => simp
      | true =>
        by_cases same : word = mark / 64
        · subst same
          simp [new]
        · simp [same, Ne.symm same]
    case ready =>
      intro later member
      rw [Tally.words_congr space_eq]
      exact inside later (List.mem_cons_of_mem word member)
    case counted =>
      -- The tally takes the votes of the group, and the record one entry for each set of it.
      intro mark
      rw [counts, sound.counted mark, SharedPool.addedWith, SharedPool.addedWith,
        List.countP_append, List.countP_map, Tally.votes, List.countP_map]
      refine (UInt32.ofNat_add _ _).symm.trans (congrArg UInt32.ofNat (Nat.add_left_cancel_iff.2 ?_))
      by_cases same : mark / 64 = word
      · rw [if_pos same]
        simp [same, Function.comp_def]
      · rw [if_neg same]
        simp [Ne.symm same, Function.comp_def]

theorem clears (sound : crew.Sound) (found : crew.threads[t]? = some ⟨leases, .clearing cleared left⟩)
    (request : PoolRequest) :
    (crew.behind t (Thread.step crew.shared ⟨leases, .clearing cleared left⟩ request)).Sound := by
  have holds := (sound.fits _ (List.mem_of_getElem? found)).holds
  cases left with
  | nil =>
    refine sound.stays found rfl (List.append_nil cleared).symm ⟨?_, trivial⟩
    intro i member
    exact (holds i (List.mem_append_left [] member)).same (.refl _ i) rfl id
  | cons i rest =>
    rcases holds i (List.mem_append_right cleared List.mem_cons_self) with ⟨marks, flushing, owed, -⟩
    have inUse := sound.inUse _ _ flushing
    have group_eq : (Task.clearing (cleared ++ [i]) rest).group =
        (Task.clearing cleared (i :: rest)).group := List.append_assoc cleared [i] rest
    refine sound.moves found flushing (slot?_changeSlot_self flushing _)
      (fun j other => same_changeSlot other _) rfl rfl rfl
      (fun _ => List.mem_append_right cleared List.mem_cons_self)
      ⟨⟨inUse.tidy.clear, inUse.size_eq⟩, (fun free => by cases free), (fun used => by cases used)⟩
      (fun still => absurd rfl still) (fun _ => rfl) ?_ ⟨?_, trivial⟩
    · intro j
      rw [Thread.turnTo, group_eq]
    · -- A set can be cleared as nothing of it is owed any more.
      intro j member
      by_cases same : j = i
      · subst same
        exact ⟨marks.clear, slot?_changeSlot_self flushing _, owed,
          fun _ => decide_eq_false (Nat.lt_irrefl 0)⟩
      · rw [Thread.turnTo, group_eq] at member
        refine (holds j member).same (same_changeSlot same _) rfl ?_
        simp [Thread.turnTo, Task.cleared, same]

theorem frees (sound : crew.Sound) {size : Nat}
    (found : crew.threads[t]? = some ⟨leases, .freeing size left⟩) (request : PoolRequest) :
    (crew.behind t (Thread.step crew.shared ⟨leases, .freeing size left⟩ request)).Sound := by
  have holds := (sound.fits _ (List.mem_of_getElem? found)).holds
  have distinct := sound.nodup_group found
  cases left with
  | nil =>
    exact sound.advance found rfl rfl (fun i => .inl ⟨rfl, fun _ => rfl, fun _ => rfl⟩)
      (fun phase i => by cases phase <;> rfl) (fits_idle _ _) sound.counted
  | cons i rest =>
    rcases holds i List.mem_cons_self with ⟨marks, flushing, owed, clean⟩
    have new := (List.nodup_cons.1 distinct).1
    simp only [Thread.step, exchange_eq_of_phase (SharedPool.phase?_eq_some_iff.2 ⟨marks, flushing⟩)]
    refine sound.exchanges found flushing (fun _ => List.mem_cons_self)
      (fun _ => clean List.mem_cons_self) (fun used => by cases used) (fun _ => owed)
      (fun j => by simp [Thread.turnTo]) ?_ ⟨?_, trivial⟩
    · intro j
      simp [Thread.turnTo, Task.group, count_cons_eq]
    · intro j member
      have other : j ≠ i := fun same => new (same ▸ member)
      exact (holds j (List.mem_cons_of_mem i member)).same (same_changeSlot other _) rfl
        (List.mem_cons_of_mem i)

/-! ## Every step -/

theorem step (sound : crew.Sound) (found : crew.threads[t]? = some thread) (request : PoolRequest) :
    (crew.behind t (thread.step crew.shared request)).Sound := by
  have ready := (sound.fits _ (List.mem_of_getElem? found)).ready
  rcases thread with ⟨leases, task⟩
  cases task with
  | idle => exact sound.begins found request
  | leasing => exact sound.seeks found request
  | givingBack => exact sound.givesBack found request
  | gathering => exact sound.gathers found request
  | lettingGo => exact sound.letsGo found request
  | adding => exact sound.adds found request
  | clearing => exact sound.clears found request
  | freeing => exact sound.frees found request
  | violated => exact ready.elim
  | broken => exact ready.elim

theorem turn (sound : crew.Sound) (t : Nat) (request : PoolRequest) : (crew.turn t request).Sound := by
  cases found : crew.threads[t]? with
  | none =>
    rw [Crew.turn, found]
    exact sound
  | some thread =>
    rw [turn_eq found]
    exact sound.step found request

theorem run (sound : crew.Sound) (schedule : List (Nat × PoolRequest)) :
    (crew.run schedule).Sound := by
  induction schedule generalizing crew with
  | nil => exact sound
  | cons next rest ih => exact ih (sound.turn next.1 next.2)

end Sound

end Crew

end GramCensus
