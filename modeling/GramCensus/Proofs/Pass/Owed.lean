import GramCensus.Proofs.Pass.Steps

/-!
# What a worker owes

The pieces of files that a worker has in its hands are, in order: the mark set that it has leased,
the chunks in its queue, and what its reader will still deliver. Pieces of one file stand next to
each other, and the worker owes a sign for each file that has it in some piece (`owed`). Turns move
signs from piece to piece; only opening a file adds to what is owed, and only giving a mark set back
takes from it (`owed_of_countStep`, `owed_of_readStep`).
-/

namespace GramCensus

/-! ## Runs of pieces -/

/-- The number of files that have a sign in some piece, where a piece of the file `id` went before,
with the sign if `found`. A piece is the number of its file and whether it has the sign. -/
def owedBehind (id : Nat) (found : Bool) : List (Nat × Bool) → Nat
  | [] => found.toNat
  | (next, has) :: rest =>
    if next = id then owedBehind id (found || has) rest
    else found.toNat + owedBehind next has rest

/-- The number of files that have a sign in some piece. -/
def owed : List (Nat × Bool) → Nat
  | [] => 0
  | (id, has) :: rest => owedBehind id has rest

/-- Two pieces of one file are as good as one. -/
theorem owed_merge (id : Nat) (first second : Bool) (rest : List (Nat × Bool)) :
    owed ((id, first) :: (id, second) :: rest) = owed ((id, first || second) :: rest) := by
  rw [owed, owedBehind, if_pos rfl, owed]

/-- The first piece stands for itself if the next one is of another file. -/
theorem owed_cons_of_ne {id next : Nat} (other : id ≠ next) (first second : Bool)
    (rest : List (Nat × Bool)) :
    owed ((id, first) :: (next, second) :: rest) = first.toNat + owed ((next, second) :: rest) := by
  rw [owed, owedBehind, if_neg (Ne.symm other), owed]

private theorem owedBehind_append_merge (last : Nat) (found : Bool) (pieces : List (Nat × Bool))
    (id : Nat) (first second : Bool) :
    owedBehind last found (pieces ++ [(id, first), (id, second)]) =
      owedBehind last found (pieces ++ [(id, first || second)]) := by
  induction pieces generalizing last found with
  | nil =>
    by_cases same : id = last
    · simp [owedBehind, same, Bool.or_assoc]
    · simp [owedBehind, same]
  | cons piece rest ih =>
    rw [List.cons_append, List.cons_append, owedBehind, owedBehind, ih, ih]

/-- The last two pieces of one file are as good as one. -/
theorem owed_append_merge (pieces : List (Nat × Bool)) (id : Nat) (first second : Bool) :
    owed (pieces ++ [(id, first), (id, second)]) = owed (pieces ++ [(id, first || second)]) := by
  cases pieces with
  | nil => exact owed_merge id first second []
  | cons piece rest => exact owedBehind_append_merge _ _ rest id first second

private theorem owedBehind_append_false (last : Nat) (found : Bool) (pieces : List (Nat × Bool))
    (id : Nat) : owedBehind last found (pieces ++ [(id, false)]) = owedBehind last found pieces := by
  induction pieces generalizing last found with
  | nil =>
    by_cases same : id = last
    · simp [owedBehind, same]
    · simp [owedBehind, same]
  | cons piece rest ih => rw [List.cons_append, owedBehind, owedBehind, ih, ih]

theorem owed_append_false (pieces : List (Nat × Bool)) (id : Nat) :
    owed (pieces ++ [(id, false)]) = owed pieces := by
  cases pieces with
  | nil => rfl
  | cons piece rest => exact owedBehind_append_false _ _ rest id

private theorem owedBehind_append_new {last id : Nat} (different : last ≠ id) (found : Bool)
    {pieces : List (Nat × Bool)} (new : ∀ piece ∈ pieces, piece.1 ≠ id) (has : Bool) :
    owedBehind last found (pieces ++ [(id, has)]) = owedBehind last found pieces + has.toNat := by
  induction pieces generalizing last found with
  | nil =>
    simp [owedBehind, Ne.symm different]
  | cons piece rest ih =>
    have later : ∀ other ∈ rest, other.1 ≠ id := by
      intro other member
      exact new other (List.mem_cons_of_mem _ member)
    rw [List.cons_append, owedBehind, owedBehind]
    by_cases same : piece.1 = last
    · rw [if_pos same, if_pos same, ih different _ later]
    · rw [if_neg same, if_neg same, ih (new piece List.mem_cons_self) _ later, Nat.add_assoc]

/-- A piece of a new file counts for itself. -/
theorem owed_append_new {id : Nat} {pieces : List (Nat × Bool)}
    (new : ∀ piece ∈ pieces, piece.1 ≠ id) (has : Bool) :
    owed (pieces ++ [(id, has)]) = owed pieces + has.toNat := by
  cases pieces with
  | nil => exact (Nat.zero_add _).symm
  | cons piece rest =>
    exact owedBehind_append_new (new piece List.mem_cons_self) _
      (fun other member => new other (List.mem_cons_of_mem _ member)) has

namespace Worker

variable {plan : PassPlan} {space : Space} {files : List OpenedFile} {worker : Worker}
  {counting : Counting}

/-! ## The pieces in a worker's hands -/

def leasePieces (pool : Pool) (lease : Option Lease) (sign : Sign) : List (Nat × Bool) :=
  match lease with
  | none => []
  | some held => [(held.fileId, leaseHas pool (some held) sign)]

def queuePieces (space : Space) (queue : List QueuedChunk) (sign : Sign) : List (Nat × Bool) :=
  queue.map fun chunk => (chunk.fileId, sign.shownBy space chunk.bytes)

/-- What a reader will deliver, behind the bytes that its next chunk begins with, as a piece. -/
def readerPieces (space : Space) (reader : Reader) (sign : Sign) : List (Nat × Bool) :=
  match reader with
  | .reading fileId chunker _ => [(fileId, sign.shownBy space (chunker.context ++ chunker.pending))]
  | _ => []

theorem readerPieces_idle (space : Space) (sign : Sign) : readerPieces space .idle sign = [] :=
  rfl

theorem readerPieces_of_isFinished {reader : Reader} (finished : reader.isFinished = true)
    (space : Space) (sign : Sign) : readerPieces space reader sign = [] := by
  cases reader <;> first | rfl | cases finished

/-- The pieces that the counter has before it. -/
def counterPieces (space : Space) (pool : Pool) (sign : Sign) (worker : Worker) : List (Nat × Bool) :=
  leasePieces pool worker.lease? sign ++ queuePieces space worker.queue sign

/-- All pieces in a worker's hands. -/
def pieces (space : Space) (pool : Pool) (sign : Sign) (worker : Worker) : List (Nat × Bool) :=
  worker.counterPieces space pool sign ++ readerPieces space worker.reader sign

/-- The number of files of which a worker owes a sign. -/
def owes (space : Space) (pool : Pool) (sign : Sign) (worker : Worker) : Nat :=
  owed (worker.pieces space pool sign)

/-- What a worker owes depends on the mark set of its own lease only. -/
theorem owes_congr {first second : Pool}
    (same : ∀ held, worker.lease? = some held → second.leased? held.slot = first.leased? held.slot)
    (sign : Sign) : worker.owes space second sign = worker.owes space first sign := by
  have pieces : leasePieces second worker.lease? sign = leasePieces first worker.lease? sign := by
    cases lease : worker.lease? with
    | none => rfl
    | some held => simp only [leasePieces, leaseHas, Option.bind_some, same held lease]
  simp only [owes, Worker.pieces, counterPieces, pieces]

/-- Whether a file will deliver bytes that show a sign. -/
def fileHas (plan : PassPlan) (space : Space) (sign : Sign) (file : OpenedFile) : Bool :=
  sign.shownBy space (file.stream.delivered plan.chunkSize)

/-- The numbers of the files that the counting half of a worker has pieces of. -/
def counterIds (worker : Worker) : List Nat :=
  (match worker.lease? with
    | none => []
    | some held => [held.fileId]) ++ worker.queue.map (·.fileId)

/-- The numbers of the files that a worker has pieces of. -/
def fileIds (worker : Worker) : List Nat :=
  worker.counterIds ++
    match worker.reader with
    | .reading fileId _ _ => [fileId]
    | _ => []

theorem map_fst_pieces (pool : Pool) (sign : Sign) :
    (worker.pieces space pool sign).map (·.1) = worker.fileIds := by
  rw [pieces, counterPieces, fileIds, counterIds, List.map_append, List.map_append]
  congr 1
  · congr 1
    · cases worker.lease? <;> rfl
    · rw [queuePieces, List.map_map]
      rfl
  · cases worker.reader <;> rfl

/-! ## What turns of the reader change -/

/-- What a file shows, a worker owes from opening it on. -/
theorem owed_of_opens (fits : plan.Fits space) {file : OpenedFile} {rest : List OpenedFile}
    (idle : worker.reader = .idle)
    (ahead : ∀ id ∈ worker.fileIds, ∀ other ∈ file :: rest, id < other.id) (pool : Pool)
    (sign : Sign) :
    owed (worker.counterPieces space pool sign ++ readerPieces space (.reading file.id
        (.start file.stream plan.chunkSize plan.overlap) 0) sign) +
        rest.countP (fileHas plan space sign) =
      worker.owes space pool sign + (file :: rest).countP (fileHas plan space sign) := by
  -- The file is behind all files that the worker has pieces of, so its piece counts for itself.
  have new : ∀ piece ∈ worker.counterPieces space pool sign, piece.1 ≠ file.id := by
    intro piece member same
    have listed : piece.1 ∈ worker.fileIds := by
      rw [← @map_fst_pieces space worker pool sign]
      exact List.mem_map_of_mem (List.mem_append_left _ member)
    exact absurd (ahead _ listed file List.mem_cons_self) (by omega)
  have delivers : readerPieces space (.reading file.id
      (.start file.stream plan.chunkSize plan.overlap) 0) sign =
        [(file.id, fileHas plan space sign file)] := by
    rw [readerPieces, Chunker.pending_start fits.chunks, fileHas]
    rfl
  rw [delivers, owed_append_new new, owes, pieces, idle, readerPieces_idle, List.append_nil,
    List.countP_cons]
  cases fileHas plan space sign file
  · simp
  · simp
    omega

/-- What leaves the reader with a chunk enters the queue. -/
theorem owed_of_reads [Memory] (fits : plan.Fits space) {fileId carried next : Nat}
    {chunker later : Chunker} {new : Bytes} (follows : chunker.Follows plan)
    (reading : worker.reader = .reading fileId chunker carried) (advances : chunker.Advances new later)
    (pool : Pool) (sign : Sign) :
    owed (leasePieces pool worker.lease? sign ++
        queuePieces space (worker.queue ++ [⟨fileId, chunker.context ++ new⟩]) sign ++
          readerPieces space (.reading fileId later next) sign) = worker.owes space pool sign := by
  have cut : sign.shownBy space (chunker.context ++ chunker.pending) =
      (sign.shownBy space (chunker.context ++ new) ||
        sign.shownBy space (later.context ++ later.pending)) := by
    rw [advances.pending_eq, ← List.append_assoc, Sign.shownBy_append _ _ fits.overlap_eq,
      advances.context_eq, follows.overlap_eq]
  rw [owes, pieces, reading, readerPieces, readerPieces, cut, ← owed_append_merge, queuePieces,
    List.map_append, counterPieces, queuePieces]
  simp

/-- What is left of a file at its end is too short to show anything. -/
theorem owed_of_closes (fits : plan.Fits space) {fileId carried : Nat} {chunker : Chunker}
    (follows : chunker.Follows plan) (reading : worker.reader = .reading fileId chunker carried)
    (none : chunker.pending = []) (pool : Pool) (sign : Sign) :
    owed (worker.counterPieces space pool sign ++ readerPieces space .idle sign) =
      worker.owes space pool sign := by
  have short : sign.shownBy space (chunker.context ++ chunker.pending) = false := by
    apply Sign.shownBy_eq_false
    rw [none, List.append_nil, fits.overlap_eq]
    exact Nat.lt_succ_of_le follows.context
  rw [owes, pieces, reading, readerPieces, short, owed_append_false, readerPieces_idle,
    List.append_nil]

/-- Turns of the reader keep what is owed and what is still to be opened together, unless it stops
and leaves a file behind. -/
theorem owed_of_readStep [Memory] (fits : plan.Fits space) (sound : worker.Sound plan)
    {after : List OpenedFile × Worker} (step : ReadStep plan files worker after)
    (ahead : ∀ id ∈ worker.fileIds, ∀ file ∈ files, id < file.id)
    (running : ¬ after.2.reader.Stopped) (pool : Pool) (sign : Sign) :
    after.2.owes space pool sign + after.1.countP (fileHas plan space sign) =
      worker.owes space pool sign + files.countP (fileHas plan space sign) := by
  have pieces_eq : worker.owes space pool sign = owed (worker.counterPieces space pool sign ++
    readerPieces space worker.reader sign) := rfl
  cases step with
  | waits => rfl
  | ends idle none =>
    subst none
    rw [pieces_eq, idle]
    rfl
  | @opens file rest taken idle next =>
    subst next
    exact owed_of_opens fits idle ahead pool sign
  | @reads fileId carried next bytes chunks chunker later new reading advances =>
    have follows := sound.follows chunker (by rw [chunker?, reading])
    exact congrArg (· + _) (@owed_of_reads plan space worker _ fits fileId carried next _ _ _ follows
      reading advances pool sign)
  | closes reading none stop =>
    have follows := sound.follows _ (by rw [chunker?, reading])
    exact congrArg (· + _) (owed_of_closes fits follows reading none pool sign)
  | stops reading stopped reason => exact absurd stopped running

/-! ## What turns of the counter change -/

/-- What is given back is received, and nothing else leaves or enters a worker's hands. -/
theorem owed_of_countStep {after : Counting × Worker} (step : CountStep space counting worker after)
    (sign : Sign) :
    sign.received after.1 + after.2.owes space after.1.pool sign ≡
      sign.received counting + worker.owes space counting.pool sign [MOD sign.modulus] := by
  cases step with
  | waits => rfl
  | @leases chunk rest slot after counts queued keeps free clean others =>
    -- A clean set of the next chunk's file adds a piece that is merged with the chunk's.
    rcases clean with ⟨marks, leased, empty⟩
    have none : leaseHas after.pool (some ⟨slot, chunk.fileId⟩) sign = false := by
      rw [leaseHas, Option.bind_some, leased, Option.any_some, empty]
    have same : Worker.owes space after.pool sign
        { worker with counter := .counting (some ⟨slot, chunk.fileId⟩) } =
          worker.owes space counting.pool sign := by
      simp only [owes, pieces, counterPieces, lease?, counts, queued, leasePieces, none,
        queuePieces, List.map_cons, List.nil_append, List.cons_append, owed_merge, Bool.false_or]
    rw [same]
    exact (keeps.received_eq sign).add_right _
  | @marks lease chunk rest marks changed marked counts queued same leased shows settled =>
    have before : leaseHas counting.pool (some lease) sign = sign.on marks := by
      rw [leaseHas, Option.bind_some, leased, Option.any_some]
    have behind : leaseHas (counting.pool.put lease.slot ⟨.leased, changed⟩) (some lease) sign =
        (sign.on marks || sign.shownBy space chunk.bytes) := by
      rcases List.getElem?_eq_some_iff.1 (Pool.leased?_eq_some_iff.1 leased) with ⟨inside, -⟩
      rw [leaseHas, Option.bind_some, Pool.leased?_put_self inside, if_pos rfl, Option.any_some,
        shows]
    rw [Counting.received_put (Pool.leased?_eq_some_iff.1 leased) (by simp) (by simp)]
    have moved : Worker.owes space (counting.pool.put lease.slot ⟨.leased, changed⟩) sign
        { worker with queue := rest, marked } = worker.owes space counting.pool sign := by
      simp only [owes, pieces, counterPieces, lease?, counts, queued, leasePieces, before, behind,
        queuePieces, List.map_cons, List.nil_append, List.cons_append, ← same, owed_merge]
    rw [moved]
  | @returns lease chunk rest after counts queued other hands =>
    -- The first piece is of another file than the next one, so it leaves with all that it owes.
    have left : worker.owes space counting.pool sign =
        (leaseHas counting.pool (some lease) sign).toNat +
          Worker.owes space after.pool sign { worker with counter := .counting none } := by
      simp only [owes, pieces, counterPieces, lease?, counts, queued, leasePieces, queuePieces,
        List.map_cons, List.nil_append, List.cons_append, owed_cons_of_ne other]
    rw [left, ← Nat.add_assoc]
    exact (hands.received_eq sign).add_right _
  | @ends lease after counts queued finished hands =>
    have left : worker.owes space counting.pool sign =
        (leaseHas counting.pool lease sign).toNat +
          Worker.owes space after.pool sign { worker with counter := .done } := by
      simp only [owes, pieces, counterPieces, lease?, counts, queued, queuePieces,
        readerPieces_of_isFinished finished, List.map_nil, List.append_nil]
      cases lease with
      | none => rfl
      | some held => rfl
    rw [left, ← Nat.add_assoc]
    exact (hands.received_eq sign).add_right _

end Worker

end GramCensus
