import GramCensus.Proofs.Pool.Interleaving

/-!
# A thread on its own

Where no other thread takes a step in between, the steps of a thread come to what the pool's own
operations do at once: leasing (`Thread.lease_alone_some`, `Thread.lease_alone_none`), giving back
(`Thread.giveBack_alone`) and flushing (`Thread.flush_alone`). Such steps are part of every schedule
that gives the thread enough turns (`Crew.run_alone`).
-/

namespace GramCensus

/-- What a busy thread comes to by steps of its own. -/
inductive Alone : SharedPool × Thread → SharedPool × Thread → Prop where
  | refl (state : SharedPool × Thread) : Alone state state
  | step {state final : SharedPool × Thread} : state.2.task ≠ .idle →
      Alone (state.2.step state.1 .lease) final → Alone state final

namespace SharedPool

def withPool (shared : SharedPool) (pool : Pool) : SharedPool :=
  { shared with counting := ⟨pool, shared.counting.tally⟩ }

end SharedPool

namespace Pool

variable {pool : Pool} {next : Nat}

/-- A slot in a phase, ready for another one. -/
def turned (phase : SlotPhase) (slot : Slot) : Slot :=
  { slot with phase }

/-! ## The slots that wait, from the first one on -/

/-- The slots before `next` that wait. -/
def waitingBefore (pool : Pool) (next : Nat) : List Nat :=
  inPhase { pool with slots := pool.slots.take next } .waiting

theorem waitingBefore_append (pool : Pool) (next : Nat) :
    ∃ later, pool.inPhase .waiting = pool.waitingBefore next ++ later := by
  have parts : pool.slots.zipIdx = (pool.slots.take next).zipIdx ++
      (pool.slots.drop next).zipIdx (0 + (pool.slots.take next).length) := by
    rw [← List.zipIdx_append, List.take_append_drop]
  rw [inPhase, parts, List.filterMap_append]
  exact ⟨_, rfl⟩

theorem waitingBefore_succ {slot : Slot} (found : pool.slots[next]? = some slot) :
    pool.waitingBefore (next + 1) =
      pool.waitingBefore next ++ if slot.phase = .waiting then [next] else [] := by
  rcases List.getElem?_eq_some_iff.1 found with ⟨inside, same⟩
  have parts : pool.slots.take (next + 1) = pool.slots.take next ++ [slot] := by
    rw [List.take_succ_eq_append_getElem inside, same]
  rw [waitingBefore, inPhase, parts, List.zipIdx_append, List.filterMap_append, List.length_take,
    Nat.min_eq_left (Nat.le_of_lt inside), Nat.zero_add]
  by_cases waits : slot.phase = .waiting <;> simp [waitingBefore, inPhase, waits]

theorem waitingBefore_size (pool : Pool) : pool.waitingBefore pool.size = pool.inPhase .waiting := by
  rw [waitingBefore, size, List.take_length]

theorem not_mem_waitingBefore : next ∉ pool.waitingBefore next := by
  intro member
  rcases mem_inPhase_iff.1 member with ⟨slot, found, -⟩
  have inside := (List.getElem?_eq_some_iff.1 found).1
  rw [List.length_take] at inside
  omega

end Pool

namespace Thread

open SharedPool (exchange_eq_of_phase)

variable {shared : SharedPool} {leases group left words : List Nat} {i next least : Nat}

theorem alone_trans {first second third : SharedPool × Thread} (before : Alone first second)
    (behind : Alone second third) : Alone first third := by
  induction before with
  | refl => exact behind
  | step busy _ ih => exact .step busy (ih behind)

/-! ## Leases -/

theorem exchange_eq_none {expected desired : SlotPhase} (other : shared.phase? i ≠ some expected) :
    shared.exchange i expected desired = none := by
  rw [SharedPool.exchange, if_neg other]

/-- Looking for a free slot passes over those that are not. -/
theorem leasing_alone {distance : Nat} (inside : next + distance ≤ shared.counting.pool.size)
    (taken : ∀ j, j < next + distance → shared.phase? j ≠ some .free) :
    Alone (shared, ⟨leases, .leasing next⟩) (shared, ⟨leases, .leasing (next + distance)⟩) := by
  induction distance generalizing next with
  | zero => exact .refl _
  | succ distance ih =>
    have small : ¬ shared.counting.pool.size ≤ next := by omega
    refine .step (by simp) ?_
    simp only [step, if_neg small, exchange_eq_none (taken next (by omega))]
    have place : next + 1 + distance = next + (distance + 1) := by omega
    have later := @ih (next + 1)
    rw [place] at later
    exact later inside taken

theorem lease_alone_some {pool : Pool} (leased : shared.counting.pool.lease = some (i, pool)) :
    Alone (begin shared ⟨leases, .idle⟩ .lease) (shared.withPool pool, ⟨i :: leases, .idle⟩) := by
  rw [Pool.lease] at leased
  split at leased
  case h_1 => cases leased
  case h_2 first =>
    cases leased
    rcases List.findIdx?_eq_some_iff_getElem.1 first with ⟨inside, free, taken⟩
    have isFree : shared.phase? i = some .free := by
      rw [SharedPool.phase?, SharedPool.slot?, List.getElem?_eq_getElem inside, Option.map_some,
        of_decide_eq_true free]
    have others : ∀ j, j < 0 + i → shared.phase? j ≠ some .free := by
      intro j before free
      have small : j < shared.counting.pool.slots.length := by omega
      rw [SharedPool.phase?, SharedPool.slot?, List.getElem?_eq_getElem small] at free
      exact taken j (by omega) (decide_eq_true (Option.some.inj free))
    have looks := @leasing_alone shared leases 0 i (by
      rw [Nat.zero_add]
      exact Nat.le_of_lt inside) others
    refine alone_trans looks (.step (by simp) ?_)
    rw [Nat.zero_add]
    simp only [step, exchange_eq_of_phase isFree]
    rw [if_neg (show ¬ shared.counting.pool.size ≤ i from Nat.not_le_of_lt inside)]
    exact .refl _

theorem lease_alone_none (none : shared.counting.pool.lease = none) :
    Alone (begin shared ⟨leases, .idle⟩ .lease) (shared, ⟨leases, .idle⟩) := by
  have taken := Pool.lease_eq_none_iff.1 none
  have looks := @leasing_alone shared leases 0 shared.counting.pool.size (Nat.le_of_eq (Nat.zero_add _))
    fun j _ free => by
      rcases SharedPool.phase?_eq_some_iff.1 free with ⟨marks, found⟩
      exact taken _ (List.mem_of_getElem? found) rfl
  refine alone_trans looks (.step (by simp) ?_)
  rw [Nat.zero_add]
  simp only [step, if_pos (Nat.le_refl _)]
  exact .refl _

/-- Setting a bit and clearing are one step. -/
theorem set_alone {marks : MarkSet} (member : i ∈ leases)
    (leased : shared.counting.pool.leased? i = some marks) (bit : Nat) :
    begin shared ⟨leases, .idle⟩ (.set i bit) =
      (shared.withPool ((shared.counting.pool.set i bit).toOption.getD shared.counting.pool),
        ⟨leases, .idle⟩) := by
  have found := Pool.leased?_eq_some_iff.1 leased
  have same : shared.counting.pool.put i ⟨.leased, marks⟩ = shared.counting.pool :=
    (Pool.changeAt_singleton found id).symm.trans (Pool.changeAt_eq_self fun _ _ _ _ => rfl)
  simp only [begin, if_pos member, SharedPool.changeSlot, SharedPool.withPool,
    Pool.changeAt_singleton found, Pool.set, leased]
  cases marks.set bit with
  | error =>
    simp only [Except.toOption, Option.getD_none, same, Except.map]
  | ok changed => rfl

theorem clear_alone {marks : MarkSet} (member : i ∈ leases)
    (leased : shared.counting.pool.leased? i = some marks) :
    begin shared ⟨leases, .idle⟩ (.clear i) =
      (shared.withPool (shared.counting.pool.clear i), ⟨leases, .idle⟩) := by
  simp only [begin, if_pos member, SharedPool.changeSlot, SharedPool.withPool,
    Pool.changeAt_singleton (Pool.leased?_eq_some_iff.1 leased), Pool.clear, leased]

theorem giveBack_alone {marks : MarkSet} (member : i ∈ leases)
    (leased : shared.counting.pool.leased? i = some marks) :
    Alone (begin shared ⟨leases, .idle⟩ (.giveBack i))
      ({ shared.withPool (shared.counting.pool.giveBack i) with
          returned := shared.returned ++ [(i, marks)] },
        ⟨leases.erase i, .idle⟩) := by
  have found : shared.slot? i = some ⟨.leased, marks⟩ := Pool.leased?_eq_some_iff.1 leased
  have sets : shared.setsAt [i] = [(i, marks)] := by
    rw [SharedPool.setsAt_cons, found]
    rfl
  have pool_eq := Pool.changeAt_singleton found
    (Pool.turned (if marks.hasMarks then .waiting else .free))
  simp only [begin, found, if_pos member]
  refine .step (by simp [turnTo]) ?_
  simp only [step, turnTo, sets, Pool.giveBack_eq leased]
  rw [Pool.turned] at pool_eq
  rw [← pool_eq]
  exact .refl _

/-! ## Flushing -/

/-- The pool of a flush that has taken a group. -/
def taken (shared : SharedPool) (group : List Nat) : SharedPool :=
  shared.withPool (shared.counting.pool.changeAt group (Pool.turned .flushing))

theorem sets_taken (shared : SharedPool) (group members : List Nat) :
    ((taken shared group).setsAt members).map (·.2) =
      members.filterMap fun i => shared.counting.pool.slots[i]?.map (·.marks) := by
  rw [SharedPool.setsAt, List.map_filterMap]
  congr 1
  funext i
  rw [SharedPool.slot?, taken, SharedPool.withPool, Pool.getElem?_changeAt]
  cases shared.counting.pool.slots[i]? with
  | none => rfl
  | some slot => by_cases member : i ∈ group <;> simp [member, Pool.turned]

/-- What a flush turns to with its group. -/
def gathered (pool : Pool) (least : Nat) (group : List Nat) : Task :=
  if group.isEmpty ∨ group.length < least then .lettingGo group
  else .adding group (MarkSet.wordsOfAny (group.filterMap fun i => pool.slots[i]?.map (·.marks)))

/-- The group that a flush has once it stops to look is the next one. -/
theorem nextGroup_eq {pool : Pool} (small : (pool.waitingBefore next).length ≤ pool.groupSize)
    (stops : (pool.waitingBefore next).length = pool.groupSize ∨ next = pool.size) :
    Counting.nextGroup pool = pool.waitingBefore next := by
  rw [Counting.nextGroup]
  rcases stops with full | rfl
  · rcases pool.waitingBefore_append next with ⟨later, parts⟩
    rw [parts, ← full, List.take_left]
  · rw [← pool.waitingBefore_size, List.take_of_length_le small]

/-- The look of a flush at a slot, while it has taken all that wait before. -/
theorem gathering_goesOn
    (room : (shared.counting.pool.waitingBefore next).length ≠ shared.counting.pool.groupSize)
    (below : next < shared.counting.pool.size) :
    step (taken shared (shared.counting.pool.waitingBefore next))
        ⟨leases, .gathering least next (shared.counting.pool.waitingBefore next)⟩ .lease =
      (taken shared (shared.counting.pool.waitingBefore (next + 1)),
        ⟨leases, .gathering least (next + 1) (shared.counting.pool.waitingBefore (next + 1))⟩) := by
  have goesOn : ¬ ((shared.counting.pool.waitingBefore next).length =
      (taken shared (shared.counting.pool.waitingBefore next)).counting.pool.groupSize ∨
      (taken shared (shared.counting.pool.waitingBefore next)).counting.pool.size ≤ next) := by
    rw [not_or, Nat.not_le, taken, SharedPool.withPool, Pool.size_changeAt]
    exact ⟨room, below⟩
  obtain ⟨slot, found⟩ : ∃ slot, shared.counting.pool.slots[next]? = some slot :=
    ⟨_, List.getElem?_eq_getElem below⟩
  have phase_eq : (taken shared (shared.counting.pool.waitingBefore next)).phase? next =
      some slot.phase := by
    rw [SharedPool.phase?, SharedPool.slot?, taken, SharedPool.withPool, Pool.getElem?_changeAt,
      found]
    simp [Pool.not_mem_waitingBefore]
  rw [Pool.waitingBefore_succ found]
  simp only [step, if_neg goesOn]
  by_cases waits : slot.phase = .waiting
  · -- The exchange succeeds, and the slot is the last one of the group so far.
    rw [waits] at phase_eq
    have apart : ∀ i ∈ shared.counting.pool.waitingBefore next, i ∉ [next] :=
      fun i member same => Pool.not_mem_waitingBefore (List.mem_singleton.1 same ▸ member)
    have taken_eq : taken shared (shared.counting.pool.waitingBefore next ++ [next]) =
        (taken shared (shared.counting.pool.waitingBefore next)).changeSlot next
          (Pool.turned .flushing) := by
      rw [taken, ← shared.counting.pool.changeAt_append apart]
      rfl
    rw [if_pos waits, taken_eq]
    simp only [exchange_eq_of_phase phase_eq]
    rfl
  · rw [if_neg waits, List.append_nil]
    simp only [exchange_eq_none (by rw [phase_eq]; simpa using waits)]
    rfl

theorem gathering_stops
    (stops : (shared.counting.pool.waitingBefore next).length = shared.counting.pool.groupSize ∨
      shared.counting.pool.size ≤ next) :
    Alone
      (taken shared (shared.counting.pool.waitingBefore next),
        ⟨leases, .gathering least next (shared.counting.pool.waitingBefore next)⟩)
      (taken shared (shared.counting.pool.waitingBefore next),
        ⟨leases, gathered shared.counting.pool least
          (shared.counting.pool.waitingBefore next)⟩) := by
  have done : (shared.counting.pool.waitingBefore next).length =
      (taken shared (shared.counting.pool.waitingBefore next)).counting.pool.groupSize ∨
      (taken shared (shared.counting.pool.waitingBefore next)).counting.pool.size ≤ next := by
    rw [taken, SharedPool.withPool, Pool.size_changeAt]
    exact stops
  refine .step (by simp) ?_
  simp only [step, if_pos done, sets_taken]
  rw [gathered]
  split <;> exact .refl _

theorem gathering_alone {distance : Nat} (whole : next + distance = shared.counting.pool.size)
    (small : (shared.counting.pool.waitingBefore next).length ≤ shared.counting.pool.groupSize) :
    Alone
      (taken shared (shared.counting.pool.waitingBefore next),
        ⟨leases, .gathering least next (shared.counting.pool.waitingBefore next)⟩)
      (taken shared (Counting.nextGroup shared.counting.pool),
        ⟨leases, gathered shared.counting.pool least
          (Counting.nextGroup shared.counting.pool)⟩) := by
  induction distance generalizing next with
  | zero =>
    rw [Nat.add_zero] at whole
    rw [nextGroup_eq small (.inr whole)]
    exact gathering_stops (.inr (Nat.le_of_eq whole.symm))
  | succ distance ih =>
    by_cases full : (shared.counting.pool.waitingBefore next).length = shared.counting.pool.groupSize
    · rw [nextGroup_eq small (.inl full)]
      exact gathering_stops (.inl full)
    · have below : next < shared.counting.pool.slots.length := by
        rw [Pool.size] at whole
        omega
      have found := List.getElem?_eq_getElem below
      have more := Pool.waitingBefore_succ found
      have room : (shared.counting.pool.waitingBefore (next + 1)).length ≤
          shared.counting.pool.groupSize := by
        rw [more, List.length_append]
        split <;> simp only [List.length_singleton, List.length_nil] <;> omega
      refine .step (by simp) ?_
      rw [gathering_goesOn full below]
      exact ih (by omega) room

/-- A part of a flush that changes the slots of its group one after the other. -/
theorem each_alone {task : List Nat → List Nat → Task} {change : Slot → Slot} {done : List Nat}
    (busy : ∀ done i rest, task done (i :: rest) ≠ .idle)
    (steps : ∀ (shared : SharedPool) done i rest, shared.phase? i = some .flushing →
      step shared ⟨leases, task done (i :: rest)⟩ .lease =
        (shared.changeSlot i change, ⟨leases, task (done ++ [i]) rest⟩))
    (flushing : ∀ i ∈ left, shared.phase? i = some .flushing) (distinct : left.Nodup) :
    Alone (shared, ⟨leases, task done left⟩)
      (shared.withPool (shared.counting.pool.changeAt left change),
        ⟨leases, task (done ++ left) []⟩) := by
  induction left generalizing shared done with
  | nil =>
    rw [Pool.changeAt_nil, List.append_nil]
    exact .refl _
  | cons i rest ih =>
    rcases List.nodup_cons.1 distinct with ⟨new, distinct⟩
    refine .step (busy done i rest) ?_
    rw [steps shared done i rest (flushing i List.mem_cons_self)]
    have still : ∀ j ∈ rest, (shared.changeSlot i change).phase? j = some .flushing := by
      intro j member
      have other : j ≠ i := fun same => new (same ▸ member)
      rw [(SharedPool.same_changeSlot other change).phase_eq]
      exact flushing j (List.mem_cons_of_mem i member)
    have later := @ih (shared.changeSlot i change) (done ++ [i]) still distinct
    have apart : ∀ j ∈ [i], j ∉ rest := fun j member => List.mem_singleton.1 member ▸ new
    have pool_eq := shared.counting.pool.changeAt_append apart change
    rw [List.append_assoc] at later
    rw [← show _ = shared.counting.pool.changeAt (i :: rest) change from pool_eq]
    exact later

theorem adding_alone {final : Tally}
    (adding : shared.counting.tally.addEach ((shared.setsAt group).map (·.2)) words =
      (final, .ok ())) :
    ∃ after, Alone (shared, ⟨leases, .adding group words⟩) (after, ⟨leases, .adding group []⟩) ∧
      after.counting = ⟨shared.counting.pool, final⟩ ∧ after.returned = shared.returned := by
  induction words generalizing shared with
  | nil =>
    rw [Tally.addEach] at adding
    cases adding
    exact ⟨shared, .refl _, rfl, rfl⟩
  | cons word rest ih =>
    rw [Tally.addEach, List.map_map] at adding
    split at adding
    case h_1 => cases adding
    case h_2 grown added =>
      obtain ⟨after, run, counting, returned⟩ := @ih
        { shared with
          counting := ⟨shared.counting.pool, grown⟩
          added := shared.added ++ (shared.setsAt group).map fun entry =>
            (entry.1, word, entry.2.word word) } adding
      refine ⟨after, .step (by simp) ?_, counting, returned⟩
      have same : shared.counting.tally.addWord word
          ((shared.setsAt group).map fun entry => entry.2.word word) = .ok grown := added
      simp only [step, same]
      exact run

/-- A flush that has added its group clears and frees it. -/
theorem added_alone (flushing : ∀ i ∈ group, shared.phase? i = some .flushing)
    (distinct : group.Nodup) :
    ∃ after, Alone (shared, ⟨leases, .adding group []⟩) (after, ⟨leases, .idle⟩) ∧
      after.counting = ⟨{ shared.counting.pool.changeAt group Counting.flushed with
        flushes := shared.counting.pool.flushes + 1
        flushedSets := shared.counting.pool.flushedSets + group.length }, shared.counting.tally⟩ ∧
      after.returned = shared.returned := by
  have clears := @each_alone shared leases group .clearing
    (fun slot => { slot with marks := slot.marks.clear }) [] (by simp) (fun _ _ _ _ _ => rfl)
    flushing distinct
  have still : ∀ i ∈ group, (shared.withPool (shared.counting.pool.changeAt group
      fun slot => { slot with marks := slot.marks.clear })).phase? i = some .flushing := by
    intro i member
    rw [← flushing i member, SharedPool.phase?, SharedPool.slot?, SharedPool.withPool,
      Pool.getElem?_changeAt, SharedPool.phase?, SharedPool.slot?]
    cases shared.counting.pool.slots[i]? <;> simp [member]
  have frees := @each_alone _ leases group (fun _ left => .freeing group.length left)
    (Pool.turned .free) [] (by simp) (fun shared _ i _ flushing => by
      simp only [step, exchange_eq_of_phase flushing]
      rfl) still distinct
  -- The steps are: adding ends, the sets are cleared, clearing ends, the slots are freed, it is noted.
  refine ⟨_, .step (by simp) (alone_trans clears (.step (by simp) (alone_trans frees
    (.step (by simp) (.refl _))))), ?_, rfl⟩
  simp only [SharedPool.withPool, Pool.changeAt_changeAt]
  rfl

/-- A flush without interruption adds the next group to the tally and frees it, or lets it go. -/
theorem flush_alone (shaped : shared.counting.Shaped) (least : Nat) (leases : List Nat) :
    ∃ after, Alone (begin shared ⟨leases, .idle⟩ (.flush least)) (after, ⟨leases, .idle⟩) ∧
      after.counting = (shared.counting.flushGroup least).1 ∧ after.returned = shared.returned := by
  have start : taken shared (shared.counting.pool.waitingBefore 0) = shared := by
    rw [taken, show shared.counting.pool.waitingBefore 0 = [] from rfl, Pool.changeAt_nil]
    rfl
  have gathers := @gathering_alone shared leases 0 least shared.counting.pool.size (Nat.zero_add _)
    (Nat.zero_le _)
  rw [start] at gathers
  have waits : ∀ i ∈ Counting.nextGroup shared.counting.pool, _ := fun i => Counting.mem_nextGroup
  have distinct := Counting.nodup_nextGroup shared.counting.pool
  rw [Counting.flushGroup]
  generalize Counting.nextGroup shared.counting.pool = group at gathers waits distinct
  have flushing : ∀ i ∈ group, (taken shared group).phase? i = some .flushing := by
    intro i member
    rcases waits i member with ⟨slot, found, -⟩
    rw [SharedPool.phase?, SharedPool.slot?, taken, SharedPool.withPool, Pool.getElem?_changeAt,
      found, Option.map_some, if_pos member]
    rfl
  dsimp only
  by_cases few : group.isEmpty ∨ group.length < least
  case pos =>
    rw [gathered, if_pos few] at gathers
    have letsGo := @each_alone _ leases group (fun _ left => .lettingGo left) (Pool.turned .waiting) []
      (by simp) (fun shared _ i _ flushing => by
        simp only [step, exchange_eq_of_phase flushing]
        rfl) flushing distinct
    -- To take slots that wait and to let them go comes to nothing.
    have back : (shared.counting.pool.changeAt group (Pool.turned .flushing)).changeAt group
        (Pool.turned .waiting) = shared.counting.pool := by
      rw [Pool.changeAt_changeAt]
      apply Pool.changeAt_eq_self
      rintro i member ⟨phase, marks⟩ found
      rcases waits i member with ⟨slot, place, waiting⟩
      cases found.symm.trans place
      cases waiting
      rfl
    refine ⟨shared, alone_trans gathers (alone_trans letsGo (.step (by simp) ?_)), ?_, rfl⟩
    · simp only [step, taken, SharedPool.withPool, back]
      exact .refl _
    · rw [if_pos few]
  case neg =>
    rw [gathered, if_neg few] at gathers
    rcases Counting.addMarks_group_of_shaped shaped waits with ⟨grown, adding⟩
    rw [Pool.setsAt] at adding
    have adding_sets := adding
    rw [Tally.addMarks, ← sets_taken shared group group] at adding_sets
    obtain ⟨added, adds, counting, returned⟩ := @adding_alone (taken shared group) leases group _ _
      adding_sets
    rw [sets_taken] at adds
    have still : ∀ i ∈ group, added.phase? i = some .flushing := by
      intro i member
      rw [← flushing i member, SharedPool.phase?, SharedPool.slot?, counting]
      rfl
    obtain ⟨after, ends, counted, same⟩ := @added_alone added leases group still distinct
    refine ⟨after, alone_trans gathers (alone_trans adds ends), ?_, same.trans returned⟩
    rw [counted, counting, if_neg few]
    simp only [adding, taken, SharedPool.withPool, Pool.changeAt_changeAt]
    rfl

end Thread

namespace Crew

variable {crew : Crew} {t : Nat}

/-- Steps of a thread on its own are a schedule in which it takes all turns. -/
theorem run_replicate {state final : SharedPool × Thread} (alone : Alone state final)
    {threads : List Thread} (inside : t < threads.length) :
    ∃ n, run (List.replicate n (t, .lease)) ⟨state.1, threads.set t state.2⟩ =
      ⟨final.1, threads.set t final.2⟩ := by
  induction alone with
  | refl => exact ⟨0, rfl⟩
  | @step state final busy _ ih =>
    rcases ih with ⟨n, run_eq⟩
    refine ⟨n + 1, ?_⟩
    rw [← run_eq, List.replicate_succ, run, List.foldl_cons]
    have found : (threads.set t state.2)[t]? = some state.2 := List.getElem?_set_self inside
    simp only [turn, found, List.set_set]
    rfl

/-- What an idle thread is told to do it has done behind some turns of its own. -/
theorem run_alone {thread : Thread} (found : crew.threads[t]? = some thread)
    (idle : thread.task = .idle) (request : PoolRequest) {final : SharedPool × Thread}
    (alone : Alone (thread.begin crew.shared request) final) :
    ∃ n, crew.run ((t, request) :: List.replicate n (t, .lease)) =
      ⟨final.1, crew.threads.set t final.2⟩ := by
  rcases run_replicate alone (List.getElem?_eq_some_iff.1 found).1 with ⟨n, run_eq⟩
  refine ⟨n, ?_⟩
  rw [← run_eq, run, List.foldl_cons]
  simp only [turn, found, Thread.step, idle]
  rfl

end Crew

end GramCensus
