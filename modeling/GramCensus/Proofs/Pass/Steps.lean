import GramCensus.Proofs.Pool.Received
import GramCensus.Proofs.Stream.Delivery
import GramCensus.Pass.Worker

/-!
# What a turn does

A turn of one half of a worker does one of a few things (`Worker.ReadStep`, `Worker.CountStep`),
and nothing can go wrong in it but the reading of a file. Later modules derive all that a pass keeps
from these two relations.
-/

namespace GramCensus

def Reader.Stopped (reader : Reader) : Prop :=
  reader = .broken ∨ reader = .exhausted

/-- A plan under which passes over a space can work. -/
structure PassPlan.Fits (plan : PassPlan) (space : Space) : Prop where
  chunks : 0 < plan.chunkSize
  queue : 0 < plan.queueDepth
  overlap_eq : space.gramLength = plan.overlap + 1

structure Chunker.Follows (plan : PassPlan) (chunker : Chunker) : Prop where
  size_eq : chunker.size = plan.chunkSize
  overlap_eq : chunker.overlap = plan.overlap
  context : chunker.context.length ≤ plan.overlap

theorem Chunker.follows_start {plan : PassPlan} (chunks : 0 < plan.chunkSize) (stream : Stream) :
    (Chunker.start stream plan.chunkSize plan.overlap).Follows plan where
  size_eq := Nat.max_eq_left chunks
  overlap_eq := rfl
  context := Nat.zero_le _

/-- A chunker at the start of a stream will deliver what the stream delivers. -/
theorem Chunker.pending_start {plan : PassPlan} (chunks : 0 < plan.chunkSize) (stream : Stream) :
    (Chunker.start stream plan.chunkSize plan.overlap).pending =
      stream.delivered plan.chunkSize := by
  have running : (Chunker.start stream plan.chunkSize plan.overlap).done = false := rfl
  rw [Chunker.pending_of_not_done running, (Chunker.follows_start chunks stream).size_eq]
  rfl

theorem Chunker.Follows.advance [Memory] {plan : PassPlan} {before after : Chunker} {new : Bytes}
    (follows : before.Follows plan) (advances : before.Advances new after) :
    after.Follows plan where
  size_eq := advances.size_eq.trans follows.size_eq
  overlap_eq := advances.overlap_eq.trans follows.overlap_eq
  context := by
    rw [advances.context_eq, Bytes.length_lastBytes, follows.overlap_eq]
    exact Nat.min_le_left _ _

namespace Worker

variable {plan : PassPlan} {space : Space} {files : List OpenedFile} {worker : Worker}
  {counting : Counting}

/-- The chunker of the file that is read, if there is one. -/
def chunker? (worker : Worker) : Option Chunker :=
  match worker.reader with
  | .reading _ chunker _ => some chunker
  | _ => none

/-- The lease that a counter holds. -/
def lease? (worker : Worker) : Option Lease :=
  match worker.counter with
  | .counting lease => lease
  | _ => none

/-- What holds of a worker between two turns. -/
structure Sound (plan : PassPlan) (worker : Worker) : Prop where
  follows : ∀ chunker, worker.chunker? = some chunker → chunker.Follows plan
  carries : ∀ fileId chunker carried, worker.reader = .reading fileId chunker carried →
    carried = chunker.context.length
  counts : ∀ failure, worker.counter ≠ .failed failure
  drained : worker.counter = .done → worker.queue = [] ∧ worker.reader.isFinished = true

/-! ## Turns of the reader -/

section

variable [Memory]

/-- What a turn of the reader does. -/
inductive ReadStep (plan : PassPlan) (files : List OpenedFile) (worker : Worker) :
    List OpenedFile × Worker → Prop where
  /-- Nothing, it is finished or the queue is full. -/
  | waits :
      worker.reader.isFinished = true ∨ plan.queueDepth ≤ worker.queue.length →
        ReadStep plan files worker (files, worker)
  /-- It ends, as there are no more files. -/
  | ends :
      worker.reader = .idle → files = [] →
        ReadStep plan files worker ([], { worker with reader := .done })
  /-- It takes the next file. -/
  | opens {file : OpenedFile} {rest : List OpenedFile} {taken : Nat} :
      worker.reader = .idle → files = file :: rest → taken = worker.files + 1 →
        ReadStep plan files worker (rest, { worker with
          reader := .reading file.id (.start file.stream plan.chunkSize plan.overlap) 0
          files := taken })
  /-- It puts a chunk into the queue. -/
  | reads {fileId carried next bytes chunks : Nat} {chunker after : Chunker} {new : Bytes} :
      worker.reader = .reading fileId chunker carried → chunker.Advances new after →
        next = after.context.length → bytes = worker.bytes + new.length →
        chunks = worker.chunks + 1 →
        ReadStep plan files worker (files, { worker with
          reader := .reading fileId after next
          queue := worker.queue ++ [⟨fileId, chunker.context ++ new⟩]
          bytes, chunks })
  /-- It is done with a file. -/
  | closes {fileId carried : Nat} {chunker : Chunker} :
      worker.reader = .reading fileId chunker carried → chunker.pending = [] →
        (chunker.ending = .ended ∨ ∃ text, chunker.ending = .failed text) →
        ReadStep plan files worker (files, { worker with reader := .idle })
  /-- It breaks down or runs out of memory. -/
  | stops {fileId carried : Nat} {chunker : Chunker} {reader : Reader} :
      worker.reader = .reading fileId chunker carried → reader.Stopped →
        (reader = .broken ∧ chunker.ending = .broken ∨
          chunker.done = false ∧ chunker.makeRoom ≠ .ok ()) →
        ReadStep plan files worker (files, { worker with reader })

theorem readStep_readChunk {fileId carried : Nat} {chunker : Chunker} (chunks : 0 < plan.chunkSize)
    (sound : worker.Sound plan) (reading : worker.reader = .reading fileId chunker carried) :
    ReadStep plan files worker (files, worker.readChunk plan fileId chunker carried) := by
  have follows := sound.follows chunker (by rw [chunker?, reading])
  have carries := sound.carries _ _ _ reading
  have step := @Chunker.step_next chunker _ (follows.size_eq ▸ chunks)
  rw [readChunk]
  generalize chunker.next = result at step
  cases step with
  | bytes advances =>
    -- The bytes that a chunk begins with were in the chunk before, so they are not counted again.
    refine .reads reading advances ?_ ?_ rfl
    · rw [advances.context_eq, Bytes.length_lastBytes, follows.overlap_eq]
    · rw [List.length_append, carries, Nat.add_sub_cancel_left]
  | ended none stop => exact .closes reading none (.inl stop)
  | failed none stop => exact .closes reading none (.inr ⟨_, stop⟩)
  | broken stop => exact .stops reading (.inl rfl) (.inl ⟨rfl, stop⟩)
  | @crowded chunk after noBytes noFailure running crowded =>
    cases chunk with
    | bytes bytes => exact absurd rfl (noBytes bytes)
    | failed text => exact absurd rfl (noFailure text)
    | broken => exact .stops reading (.inl rfl) (.inr ⟨running, crowded⟩)
    | exhausted => exact .stops reading (.inr rfl) (.inr ⟨running, crowded⟩)

theorem readStep_readTurn (fits : plan.Fits space) (sound : worker.Sound plan) :
    ReadStep plan files worker (worker.readTurn plan files) := by
  rw [readTurn.eq_def]
  split
  case h_1 failed idle => exact absurd failed (sound.counts _)
  case h_2 failed reading => exact absurd failed (sound.counts _)
  case h_3 idle notFailed =>
    cases files with
    | nil => exact .ends idle rfl
    | cons file rest => exact .opens idle rfl rfl
  case h_4 fileId chunker carried reading notFailed =>
    split
    case isTrue full => exact .waits (.inr full)
    case isFalse => exact readStep_readChunk fits.chunks sound reading
  case h_5 notIdle notReading failedIdle failedReading =>
    -- Whatever else a reader may be, it is finished.
    refine .waits (.inl ?_)
    cases reader : worker.reader with
    | idle => exact absurd reader notIdle
    | reading fileId chunker carried => exact absurd reader (notReading _ _ _)
    | done => rfl
    | broken => rfl
    | exhausted => rfl

end

/-! ## Turns of the counter -/

/-- Whether the mark set of a lease shows a sign. -/
def leaseHas (pool : Pool) (lease : Option Lease) (sign : Sign) : Bool :=
  (lease.bind fun held => pool.leased? held.slot).any sign.on

/-- A lease that a worker holds is one of the pool. -/
def Backed (pool : Pool) (lease : Option Lease) : Prop :=
  ∀ held, lease = some held → ∃ marks, pool.leased? held.slot = some marks

/-- A lease, if there is one, is given back, and its marks are received. -/
structure HandsBack (before : Counting) (lease : Option Lease) (after : Counting) : Prop where
  backed : Backed before.pool lease
  sound : after.Sound
  space_eq : after.tally.space = before.tally.space
  size_eq : after.pool.size = before.pool.size
  received_eq : ∀ sign : Sign, sign.received after ≡
    sign.received before + (leaseHas before.pool lease sign).toNat [MOD sign.modulus]
  vacated : ∀ held, lease = some held → after.pool.leased? held.slot = none
  others : ∀ i, (∀ held, lease = some held → i ≠ held.slot) →
    after.pool.leased? i = before.pool.leased? i

theorem handBack_eq_ok {lease : Option Lease} (sound : counting.Sound)
    (backed : Backed counting.pool lease) :
    ∃ after flushed, handBack plan counting lease = (after, .ok flushed) ∧
      HandsBack counting lease after := by
  cases lease with
  | none =>
    obtain ⟨after, flushed, flushing, drains, -⟩ :=
      Counting.flushGroup_drains sound.shaped plan.groupSize
    have keeps := drains.keeps sound
    exact ⟨after, flushed, flushing, {
      backed
      sound := keeps.sound
      space_eq := keeps.space_eq
      size_eq := keeps.size_eq
      received_eq := keeps.received_eq
      vacated := fun held holds => by cases holds
      others := fun i _ => drains.leased?_eq i }⟩
  | some held =>
    rcases backed held rfl with ⟨marks, leased⟩
    -- What was leased waits behind the return, and the flush keeps what was received.
    obtain ⟨after, flushed, flushing, drains, -⟩ :=
      Counting.flushGroup_drains (sound.giveBack leased).shaped plan.groupSize
    have keeps := drains.keeps (sound.giveBack leased)
    refine ⟨after, flushed, flushing, backed, keeps.sound, keeps.space_eq,
      keeps.size_eq.trans Pool.size_giveBack, ?_, ?_, ?_⟩
    · intro sign
      have received := keeps.received_eq sign
      rw [Counting.received_giveBack sound leased] at received
      rwa [leaseHas, Option.bind_some, leased, Option.any_some]
    · intro other holds
      cases holds
      rw [drains.leased?_eq]
      exact Pool.leased?_giveBack_self leased
    · intro i distinct
      rw [drains.leased?_eq]
      exact Pool.leased?_giveBack_of_ne (distinct held rfl)

/-- What a turn of the counter does. -/
inductive CountStep (space : Space) (counting : Counting) (worker : Worker) :
    Counting × Worker → Prop where
  /-- Nothing, it is finished or the queue is empty. -/
  | waits :
      worker.counter = .done ∨ worker.queue = [] ∧ worker.reader.isFinished = false →
        CountStep space counting worker (counting, worker)
  /-- It leases a clean mark set for the file of the next chunk. -/
  | leases {chunk : QueuedChunk} {rest : List QueuedChunk} {slot : Nat} {after : Counting} :
      worker.counter = .counting none → worker.queue = chunk :: rest → counting.Keeps after →
        counting.pool.leased? slot = none →
        (∃ marks, after.pool.leased? slot = some marks ∧ ∀ sign : Sign, sign.on marks = false) →
        (∀ i, i ≠ slot → after.pool.leased? i = counting.pool.leased? i) →
        CountStep space counting worker
          (after, { worker with counter := .counting (some ⟨slot, chunk.fileId⟩) })
  /-- It marks the next chunk. -/
  | marks {lease : Lease} {chunk : QueuedChunk} {rest : List QueuedChunk}
      {marks changed : MarkSet} {marked : Nat} :
      worker.counter = .counting (some lease) → worker.queue = chunk :: rest →
        lease.fileId = chunk.fileId → counting.pool.leased? lease.slot = some marks →
        (∀ sign : Sign, sign.on changed = (sign.on marks || sign.shownBy space chunk.bytes)) →
        Counting.Sound { counting with pool := counting.pool.put lease.slot ⟨.leased, changed⟩ } →
        marked = worker.marked + space.hits chunk.bytes →
        CountStep space counting worker
          ({ counting with pool := counting.pool.put lease.slot ⟨.leased, changed⟩ },
            { worker with queue := rest, marked })
  /-- It hands the mark set of another file back. -/
  | returns {lease : Lease} {chunk : QueuedChunk} {rest : List QueuedChunk} {after : Counting} :
      worker.counter = .counting (some lease) → worker.queue = chunk :: rest →
        lease.fileId ≠ chunk.fileId → HandsBack counting (some lease) after →
        CountStep space counting worker (after, { worker with counter := .counting none })
  /-- It ends, as there are no more chunks. -/
  | ends {lease : Option Lease} {after : Counting} :
      worker.counter = .counting lease → worker.queue = [] → worker.reader.isFinished = true →
        HandsBack counting lease after →
        CountStep space counting worker (after, { worker with counter := .done })

/-- With a chunk in the queue a counter leases, marks or hands back. -/
theorem countStep_countChunk {lease : Option Lease} {chunk : QueuedChunk} {rest : List QueuedChunk}
    (made : space.Made) (space_eq : counting.tally.space = space) (pooled : counting.Sound)
    (counts : worker.counter = .counting lease) (queued : worker.queue = chunk :: rest)
    (backed : Backed counting.pool lease)
    (vacant : lease = none → ∃ i, i < counting.pool.size ∧ counting.pool.leased? i = none) :
    CountStep space counting worker (worker.countChunk plan counting lease chunk rest) := by
  have fits : space.slots ≤ counting.tally.words * 64 := by
    rw [Tally.words, space_eq]
    omega
  unfold countChunk
  split
  -- Without a lease there is nothing to hand back, and a slot is vacant.
  case h_1 =>
    obtain ⟨after, slot, leasing, keeps, free, clean, others⟩ :=
      Counting.lease_eq_ok pooled (vacant rfl)
    simp only [leasing]
    exact .leases counts queued keeps free clean others
  case h_2 held =>
    rcases backed held rfl with ⟨marks, leased⟩
    split
    case isTrue same =>
      obtain ⟨changed, marking, shows, settled⟩ :=
        Pool.mark_eq_ok made fits pooled.settled leased chunk.bytes
      simp only [space_eq, marking]
      exact .marks counts queued same leased shows ⟨settled, pooled.grouped⟩ rfl
    case isFalse other =>
      obtain ⟨after, flushed, handing, hands⟩ :=
        @handBack_eq_ok plan counting (some held) pooled backed
      simp only [handing]
      exact .returns counts queued other hands

/-- Every turn of the counter does one of these things, as long as there is a mark set for it. -/
theorem countStep_countTurn (made : space.Made) (space_eq : counting.tally.space = space)
    (sound : worker.Sound plan) (pooled : counting.Sound)
    (backed : Backed counting.pool worker.lease?)
    (vacant : worker.lease? = none →
      ∃ i, i < counting.pool.size ∧ counting.pool.leased? i = none) :
    CountStep space counting worker (worker.countTurn plan counting) := by
  rw [countTurn]
  split
  case h_1 lease counts =>
    have lease_eq : worker.lease? = lease := by rw [lease?, counts]
    rw [lease_eq] at backed vacant
    split
    case h_1 chunk rest queued =>
      exact countStep_countChunk made space_eq pooled counts queued backed vacant
    case h_2 empty =>
      split
      case isTrue finished =>
        obtain ⟨after, flushed, handing, hands⟩ :=
          @handBack_eq_ok plan counting lease pooled backed
        simp only [handing]
        exact .ends counts empty finished hands
      case isFalse running => exact .waits (.inr ⟨empty, by simpa using running⟩)
  case h_2 notCounting =>
    refine .waits (.inl ?_)
    cases counts : worker.counter with
    | counting lease => exact absurd counts (notCounting lease)
    | done => rfl
    | failed failure => exact absurd counts (sound.counts failure)

end Worker

end GramCensus
