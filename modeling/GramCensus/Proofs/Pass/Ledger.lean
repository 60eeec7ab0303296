import GramCensus.Proofs.Sums
import GramCensus.Proofs.Pass.Owed
import GramCensus.Pass.Basic

/-!
# The ledger of a pass

A pass keeps a ledger of a quantity: what the pool and its tally have received of it, what the
workers have, and what is still to come with files that nobody has opened yet (`PassState.ledger`).
No turn changes it, unless a reader breaks down (`PassState.ledger_step`). For a sign these are the
files that show it (`Sign.quantity`). So at the end, when nothing is owed and nothing is unopened,
what was received of a sign is the number of files of the corpus that show it, under whatever
schedule.
-/

namespace GramCensus

namespace Worker

variable {plan : PassPlan} {space : Space} {files : List OpenedFile} {worker : Worker}
  {counting : Counting}

/-! ## What turns leave as it is -/

/-- Whether a worker holds the lease of a slot, as a number. -/
def holds (slot : Nat) (worker : Worker) : Nat :=
  (worker.lease?.any fun held => held.slot == slot).toNat

theorem holds_of_lease? {held : Lease} (lease : worker.lease? = some held) :
    worker.holds held.slot = 1 := by
  simp [holds, lease]

theorem lease?_of_readStep [Memory] {after : List OpenedFile × Worker}
    (step : ReadStep plan files worker after) : after.2.lease? = worker.lease? := by
  cases step <;> rfl

/-- A worker whose reader still works still counts. -/
theorem Sound.counter_ne_done (sound : worker.Sound plan)
    (running : worker.reader.isFinished = false) : worker.counter ≠ .done := by
  intro done
  rw [(sound.drained done).2] at running
  cases running

theorem sound_of_readStep [Memory] (fits : plan.Fits space) (sound : worker.Sound plan)
    {after : List OpenedFile × Worker} (step : ReadStep plan files worker after) :
    after.2.Sound plan := by
  cases step with
  | waits => exact sound
  | ends idle none =>
    -- A counter is done only behind its reader, which still works.
    have counts := sound.counter_ne_done (by rw [idle]; rfl)
    exact ⟨(fun chunker found => by cases found), (fun id chunker carried reading => by cases reading),
      sound.counts, fun done => absurd done counts⟩
  | opens idle next =>
    have counts := sound.counter_ne_done (by rw [idle]; rfl)
    refine ⟨?_, ?_, sound.counts, fun done => absurd done counts⟩
    · intro chunker found
      rw [← Option.some.inj found]
      exact Chunker.follows_start fits.chunks _
    · intro id chunker carried reading
      cases reading
      rfl
  | @reads fileId carried next bytes chunks chunker later new reading advances next_eq =>
    have counts := sound.counter_ne_done (by rw [reading]; rfl)
    refine ⟨?_, ?_, sound.counts, fun done => absurd done counts⟩
    · intro chunker found
      rw [← Option.some.inj found]
      exact (sound.follows _ (by rw [chunker?, reading])).advance advances
    · intro id chunker carried reading
      cases reading
      exact next_eq
  | closes reading none stop =>
    have counts := sound.counter_ne_done (by rw [reading]; rfl)
    exact ⟨(fun chunker found => by cases found), (fun id chunker carried reading => by cases reading),
      sound.counts, fun done => absurd done counts⟩
  | stops reading stopped reason =>
    have counts := sound.counter_ne_done (by rw [reading]; rfl)
    refine ⟨?_, ?_, sound.counts, fun done => absurd done counts⟩
    · intro chunker found
      rcases stopped with rfl | rfl <;> cases found
    · intro id chunker carried reading
      rcases stopped with rfl | rfl <;> cases reading

/-- A turn of the reader takes the next file at most, and with it nothing that is behind files that
are still to be opened. -/
theorem ahead_of_readStep [Memory] {after : List OpenedFile × Worker}
    (step : ReadStep plan files worker after)
    (ahead : ∀ id ∈ worker.fileIds, ∀ file ∈ files, id < file.id)
    (ascending : files.Pairwise fun a b => a.id < b.id) :
    after.1 <:+ files ∧ ∀ id ∈ after.2.fileIds, ∀ file ∈ after.1, id < file.id := by
  have counterIds : ∀ id ∈ worker.counterIds, id ∈ worker.fileIds :=
    fun id member => List.mem_append_left _ member
  cases step with
  | waits => exact ⟨List.suffix_refl _, ahead⟩
  | ends idle none => exact ⟨List.nil_suffix, fun _ _ file member => by cases member⟩
  | @opens file rest taken idle next =>
    subst next
    -- The file that is opened is ahead of all others, as files are numbered in their order.
    rcases List.pairwise_cons.1 ascending with ⟨first, -⟩
    refine ⟨List.suffix_cons file rest, ?_⟩
    intro id member other later
    rcases List.mem_append.1 member with before | new
    · exact ahead id (counterIds id before) other (List.mem_cons_of_mem _ later)
    · rw [List.mem_singleton.1 new]
      exact first other later
  | @reads fileId carried next bytes chunks chunker later new reading advances =>
    refine ⟨List.suffix_refl _, fun id member => ahead id ?_⟩
    -- The new chunk is of the file that was read before.
    have own : fileId ∈ worker.fileIds := by
      rw [fileIds, reading]
      exact List.mem_append_right _ List.mem_cons_self
    rcases List.mem_append.1 member with before | new
    · rcases List.mem_append.1 before with held | queued
      · exact counterIds id (List.mem_append_left _ held)
      · rcases List.mem_map.1 queued with ⟨chunk, listed, rfl⟩
        rcases List.mem_append.1 listed with old | added
        · exact counterIds _ (List.mem_append_right _ (List.mem_map_of_mem old))
        · rw [List.mem_singleton.1 added]
          exact own
    · rw [List.mem_singleton.1 new]
      exact own
  | closes reading none stop =>
    refine ⟨List.suffix_refl _, fun id member => ahead id ?_⟩
    rcases List.mem_append.1 member with before | none
    · exact counterIds id before
    · cases none
  | stops reading stopped reason =>
    refine ⟨List.suffix_refl _, fun id member => ahead id ?_⟩
    rcases List.mem_append.1 member with before | none
    · exact counterIds id before
    · rcases stopped with rfl | rfl <;> cases none

theorem sound_of_countStep (sound : worker.Sound plan) {after : Counting × Worker}
    (step : CountStep space counting worker after) : after.2.Sound plan := by
  cases step with
  | waits => exact sound
  | leases =>
    exact ⟨sound.follows, sound.carries, (fun failure failed => by cases failed),
      fun done => by cases done⟩
  | @marks lease chunk rest marks changed marked counts queued same leased shows settled =>
    refine ⟨sound.follows, sound.carries, sound.counts, ?_⟩
    intro done
    cases counts.symm.trans done
  | returns =>
    exact ⟨sound.follows, sound.carries, (fun failure failed => by cases failed),
      fun done => by cases done⟩
  | ends counts empty finished hands =>
    exact ⟨sound.follows, sound.carries, (fun failure failed => by cases failed),
      fun done => ⟨empty, finished⟩⟩

theorem fileIds_of_countStep {after : Counting × Worker}
    (step : CountStep space counting worker after) :
    ∀ id ∈ after.2.fileIds, id ∈ worker.fileIds := by
  cases step with
  | waits => exact fun id member => member
  | leases counts queued => simp [fileIds, counterIds, lease?, counts, queued]
  | marks counts queued same =>
    intro id
    simp only [fileIds, counterIds, lease?, counts, queued, List.map_cons, List.mem_append,
      List.mem_cons]
    tauto
  | returns counts queued other hands =>
    intro id
    simp only [fileIds, counterIds, lease?, counts, queued, List.mem_append]
    tauto
  | ends counts empty finished hands =>
    intro id
    simp only [fileIds, counterIds, lease?, counts, List.mem_append]
    tauto

theorem pooled_of_countStep (pooled : counting.Sound) {after : Counting × Worker}
    (step : CountStep space counting worker after) :
    after.1.Sound ∧ after.1.tally.space = counting.tally.space ∧
      after.1.pool.size = counting.pool.size := by
  cases step with
  | waits => exact ⟨pooled, rfl, rfl⟩
  | leases counts queued keeps => exact ⟨keeps.sound, keeps.space_eq, keeps.size_eq⟩
  | marks counts queued same leased has sound => exact ⟨sound, rfl, Pool.size_put _⟩
  | returns counts queued other hands => exact ⟨hands.sound, hands.space_eq, hands.size_eq⟩
  | ends counts empty finished hands => exact ⟨hands.sound, hands.space_eq, hands.size_eq⟩

/-- Giving back ends the lease that is given back. -/
theorem HandsBack.leased {lease : Option Lease} {after : Counting}
    (hands : HandsBack counting lease after) (slot : Nat) :
    (after.pool.leased? slot).isSome.toNat + (lease.any fun held => held.slot == slot).toNat =
      (counting.pool.leased? slot).isSome.toNat := by
  cases lease with
  | none =>
    rw [hands.others slot fun held none => by cases none]
    rfl
  | some held =>
    by_cases same : held.slot = slot
    · rcases hands.backed held rfl with ⟨marks, leased⟩
      rw [← same, hands.vacated held rfl, leased]
      simp
    · have kept := hands.others slot fun given equal => by
        rw [← Option.some.inj equal]
        exact Ne.symm same
      simp [kept, same]

/-- A lease begins where the worker takes one and ends where it gives one back. -/
theorem leased_of_countStep {after : Counting × Worker}
    (step : CountStep space counting worker after) (slot : Nat) :
    (after.1.pool.leased? slot).isSome.toNat + worker.holds slot =
      (counting.pool.leased? slot).isSome.toNat + after.2.holds slot := by
  cases step with
  | waits => rfl
  | @leases chunk rest taken after counts queued keeps free clean others =>
    rcases clean with ⟨marks, leased, -⟩
    by_cases same : taken = slot
    · simp [holds, lease?, counts, ← same, leased, free]
    · simp [holds, lease?, counts, same, others slot (Ne.symm same)]
  | @marks lease chunk rest marks changed marked counts queued same leased has settled =>
    -- Marking puts a leased slot in the place of a leased slot.
    have kept : ((counting.pool.put lease.slot ⟨.leased, changed⟩).leased? slot).isSome =
        (counting.pool.leased? slot).isSome := by
      by_cases same : slot = lease.slot
      · rcases List.getElem?_eq_some_iff.1 (Pool.leased?_eq_some_iff.1 leased) with ⟨inside, -⟩
        rw [same, Pool.leased?_put_self inside, leased]
        rfl
      · rw [Pool.leased?_put_of_ne same]
    rw [kept]
    rfl
  | returns counts queued other hands =>
    have ended := hands.leased slot
    rw [holds, lease?, counts]
    exact ended
  | ends counts empty finished hands =>
    have ended := hands.leased slot
    rw [holds, lease?, counts]
    exact ended

theorem others_of_countStep {after : Counting × Worker}
    (step : CountStep space counting worker after) {slot : Nat}
    (leased : counting.pool.leased? slot ≠ none) (other : worker.holds slot = 0) :
    after.1.pool.leased? slot = counting.pool.leased? slot := by
  have different : ∀ held, worker.lease? = some held → slot ≠ held.slot := by
    rintro held lease rfl
    rw [holds_of_lease? lease] at other
    cases other
  cases step with
  | waits => rfl
  | @leases chunk rest taken after counts queued keeps free clean others =>
    refine others slot ?_
    rintro rfl
    exact leased free
  | @marks lease chunk rest marks changed marked counts queued same found has settled =>
    exact Pool.leased?_put_of_ne (different lease (by rw [lease?, counts]))
  | returns counts queued differs hands =>
    exact hands.others slot fun held lease => different held (by rw [lease?, counts, lease])
  | ends counts empty finished hands =>
    exact hands.others slot fun held lease => different held (by rw [lease?, counts, lease])

/-- A turn of the counter leaves the reader as it is. -/
theorem reader_of_countStep {after : Counting × Worker}
    (step : CountStep space counting worker after) : after.2.reader = worker.reader := by
  cases step <;> rfl

/-- A reader ends only when there are no more files. -/
theorem done_of_readStep [Memory] {after : List OpenedFile × Worker}
    (step : ReadStep plan files worker after) (done : after.2.reader = .done) :
    worker.reader = .done ∨ after.1 = [] := by
  cases step with
  | waits => exact .inl done
  | ends => exact .inr rfl
  | opens => cases done
  | reads => cases done
  | closes => cases done
  | stops reading stopped =>
    rcases stopped with rfl | rfl <;> cases done

end Worker

/-! ## Workers in order -/

section

variable {α : Type} {p : α → Prop} {xs : List α} {k : Nat} {before : α}

/-- A member of a list with one place replaced is the new one, or stands at another place. -/
theorem exists_mem_set_iff (after : α) (found : xs[k]? = some before) :
    (∃ x ∈ xs.set k after, p x) ↔ p after ∨ ∃ j x, j ≠ k ∧ xs[j]? = some x ∧ p x := by
  rcases List.getElem?_eq_some_iff.1 found with ⟨inside, -⟩
  constructor
  · rintro ⟨x, member, holds⟩
    rcases List.getElem?_of_mem member with ⟨j, place⟩
    by_cases same : j = k
    · rw [same, List.getElem?_set_self inside] at place
      rw [Option.some.inj place]
      exact .inl holds
    · rw [List.getElem?_set_ne (Ne.symm same)] at place
      exact .inr ⟨j, x, same, place, holds⟩
  · rintro (holds | ⟨j, x, other, place, holds⟩)
    · exact ⟨after, List.mem_set inside _, holds⟩
    · rw [← List.getElem?_set_ne (Ne.symm other)] at place
      exact ⟨x, List.mem_of_getElem? place, holds⟩

theorem set_eq_self (found : xs[k]? = some before) : xs.set k before = xs := by
  rcases List.getElem?_eq_some_iff.1 found with ⟨inside, rfl⟩
  exact List.set_getElem_self inside

theorem exists_mem_iff (found : xs[k]? = some before) :
    (∃ x ∈ xs, p x) ↔ p before ∨ ∃ j x, j ≠ k ∧ xs[j]? = some x ∧ p x := by
  rw [← exists_mem_set_iff before found, set_eq_self found]

end

section

variable {workers : List Worker} {k : Nat} {before after : Worker}

/-- What is found of the readers does not depend on a worker whose reader is left as it is. -/
theorem exists_reader_set {p : Reader → Prop} (found : workers[k]? = some before)
    (same : after.reader = before.reader) :
    (∃ worker ∈ workers.set k after, p worker.reader) ↔ ∃ worker ∈ workers, p worker.reader := by
  rw [exists_mem_set_iff after found, exists_mem_iff found, same]

end

/-- What holds between two turns of the files that nobody has opened yet and of the workers. Files
are opened in the order of their numbers, and readers end only when all are opened. -/
structure InOrder (plan : PassPlan) (files : List OpenedFile) (crew : List Worker) : Prop where
  workers : ∀ worker ∈ crew, worker.Sound plan
  ascending : files.Pairwise fun a b => a.id < b.id
  ahead : ∀ worker ∈ crew, ∀ id ∈ worker.fileIds, ∀ file ∈ files, id < file.id
  opened : (∃ worker ∈ crew, worker.reader = .done) → files = []

namespace InOrder

variable {plan : PassPlan} {space : Space} {files : List OpenedFile} {crew : List Worker} {k : Nat}
  {worker : Worker}

/-- Workers that have done nothing yet are in order. -/
theorem fresh (crew : Nat) (ascending : files.Pairwise fun a b => a.id < b.id) :
    InOrder plan files (List.replicate crew .fresh) := by
  refine ⟨?workers, ascending, ?ahead, ?opened⟩
  case workers =>
    intro worker member
    obtain rfl := List.eq_of_mem_replicate member
    exact ⟨(fun chunker found => by cases found), (fun id chunker carried reading => by cases reading),
      (fun failure failed => by cases failed), fun done => by cases done⟩
  case ahead =>
    intro worker member id own
    obtain rfl := List.eq_of_mem_replicate member
    cases own
  case opened =>
    rintro ⟨worker, member, done⟩
    obtain rfl := List.eq_of_mem_replicate member
    cases done

/-- A turn of a reader keeps files and workers in order. -/
theorem reads [Memory] (inOrder : InOrder plan files crew) (fits : plan.Fits space)
    {after : List OpenedFile × Worker} (found : crew[k]? = some worker)
    (step : worker.ReadStep plan files after) : InOrder plan after.1 (crew.set k after.2) := by
  have member := List.mem_of_getElem? found
  obtain ⟨fewer, ahead⟩ := Worker.ahead_of_readStep step (inOrder.ahead worker member)
    inOrder.ascending
  refine ⟨?workers, inOrder.ascending.sublist fewer.sublist, ?ahead, ?opened⟩
  case workers =>
    intro other listed
    rcases List.mem_or_eq_of_mem_set listed with old | rfl
    · exact inOrder.workers other old
    · exact Worker.sound_of_readStep fits (inOrder.workers worker member) step
  case ahead =>
    intro other listed
    rcases List.mem_or_eq_of_mem_set listed with old | rfl
    · exact fun id own file later => inOrder.ahead other old id own file (fewer.subset later)
    · exact ahead
  case opened =>
    -- Once a reader has found no more files, there are none for any other.
    intro done
    rcases (exists_mem_set_iff _ found).1 done with own | other
    · rcases Worker.done_of_readStep step own with before | none
      · rw [inOrder.opened ⟨worker, member, before⟩] at fewer
        exact List.suffix_nil.1 fewer
      · exact none
    · rw [inOrder.opened ((exists_mem_iff found).2 (.inr other))] at fewer
      exact List.suffix_nil.1 fewer

/-- So does a turn of a counter. -/
theorem counts (inOrder : InOrder plan files crew) {after : Worker}
    (found : crew[k]? = some worker) (sound : after.Sound plan)
    (reader_eq : after.reader = worker.reader) (ids : ∀ id ∈ after.fileIds, id ∈ worker.fileIds) :
    InOrder plan files (crew.set k after) := by
  have member := List.mem_of_getElem? found
  refine ⟨?workers, inOrder.ascending, ?ahead, ?opened⟩
  case workers =>
    intro other listed
    rcases List.mem_or_eq_of_mem_set listed with old | rfl
    · exact inOrder.workers other old
    · exact sound
  case ahead =>
    intro other listed
    rcases List.mem_or_eq_of_mem_set listed with old | rfl
    · exact inOrder.ahead other old
    · exact fun id own => inOrder.ahead worker member id (ids id own)
  case opened =>
    exact fun done =>
      inOrder.opened ((@exists_reader_set _ _ _ _ (· = .done) found reader_eq).1 done)

end InOrder

namespace PassState

variable {plan : PassPlan} {space : Space} {state : PassState}

/-! ## Soundness -/

/-- What holds of a pass between two turns. -/
structure Sound (plan : PassPlan) (space : Space) (state : PassState) : Prop
    extends InOrder plan state.files state.workers where
  pooled : state.counting.Sound
  space_eq : state.counting.tally.space = space
  roomy : state.workers.length < state.counting.pool.size
  leases : ∀ slot, (state.workers.map (Worker.holds slot)).sum =
    (state.counting.pool.leased? slot).isSome.toNat

/-- What a turn does: nothing, or a step of the reader or of the counter of one worker. -/
inductive Step [Memory] (plan : PassPlan) (space : Space) (state : PassState) :
    PassState → Prop where
  | absent : Step plan space state state
  | reads {k : Nat} {worker : Worker} {after : List OpenedFile × Worker} :
      state.workers[k]? = some worker → worker.ReadStep plan state.files after →
        Step plan space state
          { state with files := after.1, workers := state.workers.set k after.2 }
  | counts {k : Nat} {worker : Worker} {after : Counting × Worker} :
      state.workers[k]? = some worker → worker.CountStep space state.counting after →
        Step plan space state
          { state with counting := after.1, workers := state.workers.set k after.2 }

/-! ## Leases of different workers -/

/-- Whoever holds a lease holds one of the pool. -/
theorem Sound.backed (sound : state.Sound plan space) {k : Nat} {worker : Worker}
    (found : state.workers[k]? = some worker) :
    Worker.Backed state.counting.pool worker.lease? := by
  intro held lease
  have one := @le_sum_map _ (Worker.holds held.slot) _ k worker found
  rw [sound.leases, Worker.holds_of_lease? lease] at one
  cases leased : state.counting.pool.leased? held.slot with
  | none => simp [leased] at one
  | some marks => exact ⟨marks, rfl⟩

theorem Sound.holds_eq_zero (sound : state.Sound plan space) {j k : Nat} {worker other : Worker}
    (found : state.workers[k]? = some worker) (second : state.workers[j]? = some other)
    (different : j ≠ k) {held : Lease} (lease : other.lease? = some held) :
    worker.holds held.slot = 0 := by
  have two := @add_le_sum_map _ (Worker.holds held.slot) _ k worker j other found second different
  rw [sound.leases, Worker.holds_of_lease? lease] at two
  have one := Bool.toNat_le (state.counting.pool.leased? held.slot).isSome
  omega

theorem Sound.vacant (sound : state.Sound plan space) :
    ∃ i, i < state.counting.pool.size ∧ state.counting.pool.leased? i = none := by
  apply Classical.byContradiction
  intro none
  have listed : List.range state.counting.pool.size ⊆
      state.workers.filterMap fun worker => worker.lease?.map (·.slot) := by
    intro i inside
    -- Each slot below the pool's size is leased, so some worker holds its lease.
    have leased : state.counting.pool.leased? i ≠ Option.none := fun free =>
      none ⟨i, List.mem_range.1 inside, free⟩
    have positive : 0 < (state.workers.map (Worker.holds i)).sum := by
      rw [sound.leases, Option.isSome_iff_ne_none.2 leased]
      exact Nat.one_pos
    rcases List.sum_pos_iff_exists_pos_nat.1 positive with ⟨_, listed, holds⟩
    rcases List.mem_map.1 listed with ⟨worker, member, rfl⟩
    refine List.mem_filterMap.2 ⟨worker, member, ?_⟩
    cases lease : worker.lease? with
    | none => simp [Worker.holds, lease] at holds
    | some held =>
      have same : held.slot = i := by
        by_cases equal : held.slot = i
        · exact equal
        · rw [Worker.holds, lease, Option.any_some, beq_eq_false_iff_ne.2 equal] at holds
          cases holds
      rw [Option.map_some, same]
  have few := List.nodup_range.length_le_of_subset listed
  have most := @List.length_filterMap_le _ _ (fun worker => worker.lease?.map (·.slot))
    state.workers
  have roomy := sound.roomy
  rw [List.length_range] at few
  omega

theorem step_turn [Memory] (made : space.Made) (fits : plan.Fits space)
    (sound : state.Sound plan space)
    (t : Turn) : state.Step plan space (state.turn plan t) := by
  rw [turn]
  split
  case h_1 => exact .absent
  case h_2 worker found =>
    have own := sound.workers worker (List.mem_of_getElem? found)
    split
    · exact .reads found (Worker.readStep_readTurn fits own)
    · exact .counts found (Worker.countStep_countTurn made sound.space_eq own sound.pooled
        (sound.backed found) fun _ => sound.vacant)

/-! ## What turns keep -/

theorem sound_of_reads [Memory] (fits : plan.Fits space) (sound : state.Sound plan space)
    {k : Nat} {worker : Worker} {after : List OpenedFile × Worker}
    (found : state.workers[k]? = some worker) (step : worker.ReadStep plan state.files after) :
    Sound plan space { state with files := after.1, workers := state.workers.set k after.2 } := by
  refine ⟨sound.toInOrder.reads fits found step, sound.pooled, sound.space_eq, ?roomy, ?leases⟩
  case roomy =>
    rw [List.length_set]
    exact sound.roomy
  case leases =>
    intro slot
    have total := @sum_map_set _ _ (Worker.holds slot) _ _ _ after.2 found fun _ _ _ _ => rfl
    have same : after.2.holds slot = worker.holds slot := by
      rw [Worker.holds, Worker.lease?_of_readStep step, Worker.holds]
    rw [← sound.leases]
    simp only
    omega

theorem sound_of_counts (sound : state.Sound plan space) {k : Nat} {worker : Worker}
    {after : Counting × Worker} (found : state.workers[k]? = some worker)
    (step : worker.CountStep space state.counting after) :
    Sound plan space { state with counting := after.1, workers := state.workers.set k after.2 } := by
  have own := sound.workers worker (List.mem_of_getElem? found)
  rcases Worker.pooled_of_countStep sound.pooled step with ⟨pooled, space_eq, size⟩
  refine ⟨sound.toInOrder.counts found (Worker.sound_of_countStep own step)
    (Worker.reader_of_countStep step) (Worker.fileIds_of_countStep step), pooled,
    space_eq.trans sound.space_eq, ?roomy, ?leases⟩
  case roomy =>
    rw [List.length_set, size]
    exact sound.roomy
  case leases =>
    intro slot
    have total := @sum_map_set _ _ (Worker.holds slot) _ _ _ after.2 found fun _ _ _ _ => rfl
    have leases := sound.leases slot
    have moved := Worker.leased_of_countStep step slot
    simp only
    omega

/-- Every turn keeps a pass sound. -/
theorem sound_step [Memory] (fits : plan.Fits space) (sound : state.Sound plan space)
    {after : PassState} (step : state.Step plan space after) : after.Sound plan space := by
  cases step with
  | absent => exact sound
  | reads found step => exact sound_of_reads fits sound found step
  | counts found step => exact sound_of_counts sound found step

end PassState

/-! ## The ledger -/

/-- Something that the files bring into a pass: what is still to come with a file, what a worker has
of it, and what the pool and its tally have received. -/
structure Quantity where
  file : OpenedFile → Nat
  worker : Pool → Worker → Nat
  counting : Counting → Nat

/-- Turns move a quantity from place to place and neither add to it nor lose any of it, as long as
no reader stops; in the counters it may be cut by a modulus. What a worker has depends on the mark
set of its own lease only. -/
structure Quantity.Conserved [Memory] (plan : PassPlan) (space : Space) (modulus : Nat)
    (quantity : Quantity) : Prop where
  reads : ∀ {files : List OpenedFile} {worker : Worker} {after : List OpenedFile × Worker},
    worker.Sound plan → (∀ id ∈ worker.fileIds, ∀ file ∈ files, id < file.id) →
      worker.ReadStep plan files after → ¬ after.2.reader.Stopped → ∀ pool,
        quantity.worker pool after.2 + (after.1.map quantity.file).sum =
          quantity.worker pool worker + (files.map quantity.file).sum
  counts : ∀ {counting : Counting} {worker : Worker} {after : Counting × Worker},
    worker.CountStep space counting after →
      quantity.counting after.1 + quantity.worker after.1.pool after.2 ≡
        quantity.counting counting + quantity.worker counting.pool worker [MOD modulus]
  frame : ∀ {first second : Pool} {worker : Worker},
    (∀ held, worker.lease? = some held → second.leased? held.slot = first.leased? held.slot) →
      quantity.worker second worker = quantity.worker first worker

namespace PassState

variable {plan : PassPlan} {space : Space} {state : PassState} {quantity : Quantity} {modulus : Nat}

/-- All there is of a quantity in a pass. -/
def ledger (quantity : Quantity) (state : PassState) : Nat :=
  quantity.counting state.counting +
    (state.workers.map (quantity.worker state.counting.pool)).sum +
    (state.files.map quantity.file).sum

/-- A turn of a counter is nothing to what other workers have. -/
theorem Sound.frame [Memory] (sound : state.Sound plan space)
    (conserved : quantity.Conserved plan space modulus) {j k : Nat} {worker other : Worker}
    {after : Counting × Worker} (found : state.workers[k]? = some worker)
    (step : worker.CountStep space state.counting after) (different : j ≠ k)
    (second : state.workers[j]? = some other) :
    quantity.worker after.1.pool other = quantity.worker state.counting.pool other := by
  apply conserved.frame
  intro held lease
  rcases sound.backed second held lease with ⟨marks, leased⟩
  exact Worker.others_of_countStep step (by rw [leased]; exact Option.some_ne_none _)
    (sound.holds_eq_zero found second different lease)

/-- No turn changes the ledger, unless a reader stops in it. -/
theorem ledger_step [Memory] (conserved : quantity.Conserved plan space modulus)
    (sound : state.Sound plan space) {after : PassState} (step : state.Step plan space after)
    (running : ∀ worker ∈ after.workers, ¬ worker.reader.Stopped) :
    after.ledger quantity ≡ state.ledger quantity [MOD modulus] := by
  cases step with
  | absent => rfl
  | @reads k worker after found step =>
    have member := List.mem_of_getElem? found
    have listed : after.2 ∈ state.workers.set k after.2 :=
      List.mem_set (List.getElem?_eq_some_iff.1 found).1 _
    have equal := conserved.reads (sound.workers worker member) (sound.ahead worker member) step
      (running after.2 listed) state.counting.pool
    have total := @sum_map_set _ _ (quantity.worker state.counting.pool) _ _ _ after.2 found
      fun _ _ _ _ => rfl
    apply congrArg (· % modulus)
    simp only [ledger]
    omega
  | @counts k worker after found step =>
    -- One worker has what the pool has gained or lost, and the others have what they had.
    have total := @sum_map_set _ (quantity.worker state.counting.pool)
      (quantity.worker after.1.pool) _ _ _ after.2 found
      fun j other different second => sound.frame conserved found step different second
    have moved := (conserved.counts step).add_right
      ((state.workers.map (quantity.worker state.counting.pool)).sum +
        (state.files.map quantity.file).sum)
    apply Nat.ModEq.add_right_cancel' (quantity.worker state.counting.pool worker)
    simp only [ledger]
    convert moved using 1 <;> omega

end PassState

namespace Sign

variable {plan : PassPlan} {space : Space}

/-- The files with a sign: those that gave it back, those that some worker owes it for, and those
that nobody has opened yet. -/
def quantity (plan : PassPlan) (space : Space) (sign : Sign) : Quantity where
  file := fun file => (Worker.fileHas plan space sign file).toNat
  worker := fun pool worker => worker.owes space pool sign
  counting := sign.received

theorem conserved_quantity [Memory] (fits : plan.Fits space) (sign : Sign) :
    (sign.quantity plan space).Conserved plan space sign.modulus where
  reads := by
    intro files worker after sound ahead step running pool
    have equal := Worker.owed_of_readStep fits sound step ahead running pool sign
    rwa [← sum_map_toNat, ← sum_map_toNat] at equal
  counts := fun step => Worker.owed_of_countStep step sign
  frame := fun same => Worker.owes_congr same sign

end Sign

end GramCensus
