import Mathlib.Algebra.Order.Floor.Div
import Mathlib.GroupTheory.GroupAction.Ring
import GramCensus.Proofs.Pass.Outcome

/-!
# What a pass has seen

The workers of a pass count what goes through their hands: files, new bytes, chunks, and windows
with a slot. Each of these numbers is a measure of the files (`Measure`): what a file brings of it
is with the reader, in the queue, or counted, and turns only move it on. At the end all of it is
counted (`Pass.counted_closing`), so the totals of a pass are those of its files, whatever its
schedule, its workers and its queues were (`Pass.totals_of_count`).
-/

namespace GramCensus

/-- Something that workers count: what a file brings of it, what of it is still with a chunker or in
a chunk of the queue, and what of it a worker has counted. -/
structure Measure where
  file : OpenedFile → Nat
  chunker : Chunker → Nat
  chunk : Bytes → Nat
  counted : Worker → Nat

namespace Measure

variable [Memory]

/-- What the steps of a worker's work move on, and that the rest of its work moves nothing. -/
structure Lawful (plan : PassPlan) (space : Space) (measure : Measure) : Prop where
  opens : ∀ (worker : Worker) (reader : Reader) (file : OpenedFile),
    measure.counted { worker with reader, files := worker.files + 1 } +
        measure.chunker (.start file.stream plan.chunkSize plan.overlap) =
      measure.counted worker + measure.file file
  reads : ∀ (worker : Worker) (reader : Reader) (queue : List QueuedChunk)
    {chunker after : Chunker} {new : Bytes}, chunker.Follows plan → chunker.Advances new after →
    measure.counted { worker with
        reader, queue, bytes := worker.bytes + new.length, chunks := worker.chunks + 1 } +
        measure.chunker after + measure.chunk (chunker.context ++ new) =
      measure.counted worker + measure.chunker chunker
  closes : ∀ {chunker : Chunker}, chunker.Follows plan → chunker.pending = [] →
    measure.chunker chunker = 0
  marks : ∀ (worker : Worker) (queue : List QueuedChunk) (chunk : Bytes),
    measure.counted { worker with queue, marked := worker.marked + space.hits chunk } =
      measure.counted worker + measure.chunk chunk
  moves : ∀ (worker : Worker) (reader : Reader) (counter : Counter),
    measure.counted { worker with reader, counter } = measure.counted worker

variable {plan : PassPlan} {space : Space} {measure : Measure}

/-- What the reading half of a worker has left. -/
def ofReader (measure : Measure) (worker : Worker) : Nat :=
  (worker.chunker?.map measure.chunker).getD 0

def ofQueue (measure : Measure) (queue : List QueuedChunk) : Nat :=
  (queue.map fun chunk => measure.chunk chunk.bytes).sum

/-- A measure as a quantity, all of which stays with the workers. -/
def quantity (measure : Measure) : Quantity where
  file := measure.file
  worker := fun _ worker =>
    measure.counted worker + measure.ofReader worker + measure.ofQueue worker.queue
  counting := fun _ => 0

theorem conserved_quantity (lawful : measure.Lawful plan space) :
    measure.quantity.Conserved plan space 0 where
  reads := by
    intro files worker after sound ahead step running pool
    cases step with
    | waits => rfl
    | ends idle none =>
      have same := lawful.moves worker .done worker.counter
      subst none
      simp only [quantity, ofReader, Worker.chunker?, idle, same]
    | @opens file rest taken idle next same =>
      have moved := lawful.opens worker
        (.reading file.id (.start file.stream plan.chunkSize plan.overlap) 0) file
      subst next same
      simp only [quantity, ofReader, Worker.chunker?, idle, Option.map_some, Option.getD_some,
        Option.map_none, Option.getD_none, List.map_cons, List.sum_cons]
      omega
    | @reads fileId carried next bytes chunks chunker later new reading advances _ bytes_eq
        chunks_eq =>
      have moved := lawful.reads worker (.reading fileId later next)
        (worker.queue ++ [⟨fileId, chunker.context ++ new⟩])
        (sound.follows chunker (by rw [Worker.chunker?, reading])) advances
      subst bytes_eq chunks_eq
      simp only [quantity, ofReader, ofQueue, Worker.chunker?, reading, Option.map_some,
        Option.getD_some, List.map_append, List.sum_append, List.map_cons, List.map_nil,
        List.sum_cons, List.sum_nil]
      omega
    | @closes fileId carried chunker reading none stop =>
      have empty := lawful.closes (sound.follows chunker (by rw [Worker.chunker?, reading])) none
      have same := lawful.moves worker .idle worker.counter
      simp only [quantity, ofReader, Worker.chunker?, reading, Option.map_some, Option.getD_some,
        Option.map_none, Option.getD_none, empty, same]
    | stops reading stopped => exact absurd stopped running
  counts := by
    intro counting worker after step
    apply congrArg (· % 0)
    cases step with
    | waits => rfl
    | @leases chunk rest slot after counts queued =>
      have same := lawful.moves worker worker.reader (.counting (some ⟨slot, chunk.fileId⟩))
      simp only [quantity, ofReader, Worker.chunker?, same]
    | @marks lease chunk rest marks changed marked counts queued _ _ _ _ marked_eq =>
      have moved := lawful.marks worker rest chunk.bytes
      subst marked_eq
      simp only [quantity, ofReader, ofQueue, Worker.chunker?, queued, List.map_cons,
        List.sum_cons]
      omega
    | returns =>
      have same := lawful.moves worker worker.reader (.counting none)
      simp only [quantity, ofReader, Worker.chunker?, same]
    | ends =>
      have same := lawful.moves worker worker.reader .done
      simp only [quantity, ofReader, Worker.chunker?, same]
  frame := fun _ => rfl

/-! ## The four numbers -/

/-- The files themselves. -/
def files : Measure where
  file := fun _ => 1
  chunker := fun _ => 0
  chunk := fun _ => 0
  counted := Worker.files

theorem lawful_files : files.Lawful plan space where
  opens := fun _ _ _ => rfl
  reads := fun _ _ _ _ _ _ _ _ => rfl
  closes := fun _ _ => rfl
  marks := fun _ _ _ => rfl
  moves := fun _ _ _ => rfl

/-- The bytes that the chunks of a size deliver, without those that a chunk repeats. -/
def bytes (size : Nat) : Measure where
  file := fun file => (file.stream.delivered size).length
  chunker := fun chunker => chunker.pending.length
  chunk := fun _ => 0
  counted := Worker.bytes

theorem lawful_bytes (fits : plan.Fits space) : (bytes plan.chunkSize).Lawful plan space where
  opens := by
    intro worker reader file
    simp only [bytes, Chunker.pending_start fits.chunks]
  reads := by
    intro worker reader queue chunker after new follows advances
    simp only [bytes, advances.pending_eq, List.length_append]
    omega
  closes := fun _ none => congrArg List.length none
  marks := fun _ _ _ => rfl
  moves := fun _ _ _ => rfl

/-- The chunks of a size that the delivered bytes make, the last one perhaps shorter. -/
def chunks (size : Nat) : Measure where
  file := fun file => (file.stream.delivered size).length ⌈/⌉ size
  chunker := fun chunker => chunker.pending.length ⌈/⌉ size
  chunk := fun _ => 0
  counted := Worker.chunks

theorem ceilDiv_of_advances {before after : Chunker} {new : Bytes} {size : Nat}
    (positive : 0 < size) (size_eq : before.size = size) (advances : before.Advances new after) :
    before.pending.length ⌈/⌉ size = 1 + after.pending.length ⌈/⌉ size := by
  have some := List.length_pos_iff.2 advances.nonempty
  rw [advances.pending_eq, List.length_append]
  simp only [Nat.ceilDiv_eq_add_pred_div]
  rcases advances.filled with full | ⟨partly, none⟩
  · -- A full chunk takes one size off what is pending.
    rw [full, size_eq, show size + after.pending.length + size - 1 =
      size + (after.pending.length + size - 1) by omega, Nat.add_div_left _ positive, Nat.add_comm]
  · -- A chunk that is not full is the last one.
    rw [size_eq] at partly
    rw [none, List.length_nil, Nat.div_eq_of_lt (show 0 + size - 1 < size by omega),
      show new.length + 0 + size - 1 = size + (new.length - 1) by omega,
      Nat.add_div_left _ positive, Nat.div_eq_of_lt (by omega)]

theorem lawful_chunks (fits : plan.Fits space) : (chunks plan.chunkSize).Lawful plan space where
  opens := by
    intro worker reader file
    simp only [chunks, Chunker.pending_start fits.chunks]
  reads := by
    intro worker reader queue chunker after new follows advances
    have moved := ceilDiv_of_advances fits.chunks follows.size_eq advances
    simp only [chunks, moved]
    omega
  closes := by
    intro chunker _ none
    simp only [chunks, none, List.length_nil, zero_ceilDiv]
  marks := fun _ _ _ => rfl
  moves := fun _ _ _ => rfl

/-- The windows of the delivered bytes that have a slot. -/
def marked (space : Space) (size : Nat) : Measure where
  file := fun file => space.hits (file.stream.delivered size)
  chunker := fun chunker => space.hits (chunker.context ++ chunker.pending)
  chunk := space.hits
  counted := Worker.marked

theorem lawful_marked (fits : plan.Fits space) :
    (marked space plan.chunkSize).Lawful plan space where
  opens := by
    intro worker reader file
    simp only [marked, Chunker.pending_start fits.chunks]
    rfl
  reads := by
    intro worker reader queue chunker after new follows advances
    -- The windows that lie in the new bytes or end in them are those of the chunk.
    have cut := Space.hits_append (chunker.context ++ new) after.pending fits.overlap_eq
    rw [List.append_assoc, ← advances.pending_eq, ← follows.overlap_eq,
      ← advances.context_eq] at cut
    simp only [marked, cut]
    omega
  closes := by
    intro chunker follows none
    apply Space.hits_eq_zero
    rw [none, List.append_nil, fits.overlap_eq]
    exact Nat.lt_succ_of_le follows.context
  marks := fun _ _ _ => rfl
  moves := fun _ _ _ => rfl

end Measure

namespace Pass

variable {settings : Settings} {space : Space} {files : List OpenedFile}

variable [Memory]

/-! ## At the end -/

/-- In a pass in which no reader stops, the workers have counted all that the files bring. -/
theorem counted_closing {measure : Measure} (valid : settings.check = .ok ())
    (made : space.Made) (ascending : files.Pairwise fun a b => a.id < b.id)
    (lawful : measure.Lawful (settings.plan space) space) (fresh : measure.counted .fresh = 0)
    {schedule : List Turn} (running : ¬ (closing settings space files schedule).Stopped) :
    ((closing settings space files schedule).workers.map measure.counted).sum =
      (files.map measure.file).sum := by
  rcases accounts_closing valid made ascending schedule with ⟨accounts, finished⟩
  have even := ledger_closing valid made ascending (Measure.conserved_quantity lawful) fresh rfl
    running
  -- At the end the readers have no chunkers and the queues no chunks.
  have only : ((closing settings space files schedule).workers.map (measure.quantity.worker
      (closing settings space files schedule).counting.pool)) =
      (closing settings space files schedule).workers.map measure.counted := by
    apply List.map_congr_left
    intro worker member
    rcases accounts.sound.counter_eq_done finished member with ⟨done, reader⟩
    have drained := ((accounts.sound.workers worker member).drained done).1
    have unread : worker.chunker? = none := by
      rw [Worker.chunker?]
      split
      case h_1 reading =>
        rw [reading] at reader
        cases reader
      case h_2 => rfl
    simp only [Measure.quantity, Measure.ofReader, Measure.ofQueue, unread, drained]
    rfl
  rw [only, Nat.modEq_zero_iff] at even
  exact (Nat.zero_add _).symm.trans even

/-- The totals of a pass that succeeds are those of its files. -/
theorem totals_of_count (valid : settings.check = .ok ()) (made : space.Made)
    (ascending : files.Pairwise fun a b => a.id < b.id) {schedule : List Turn} {tally : Tally}
    {totals : PassTotals} (counted : count settings space files schedule = .ok (tally, totals)) :
    totals.files = files.length ∧
      totals.bytes = (files.map fun file =>
        (file.stream.delivered settings.chunkSize).length).sum ∧
      totals.chunks = (files.map fun file =>
        (file.stream.delivered settings.chunkSize).length ⌈/⌉ settings.chunkSize).sum ∧
      totals.marked = (files.map fun file =>
        space.hits (file.stream.delivered settings.chunkSize)).sum ∧
      totals.flushedSets = files.countP fun file =>
        decide (0 < space.hits (file.stream.delivered settings.chunkSize)) := by
  rcases closed_of_count valid made ascending counted with
    ⟨running, closed, flushed, closes, -, rfl⟩
  have fits := fits_plan valid space
  have sound := (accounts_closing valid made ascending schedule).1.sound.pooled
  have received := received_closing valid made ascending running .any
  refine ⟨?_, ?_, ?_, ?_, ?_⟩
  · have all := counted_closing valid made ascending Measure.lawful_files rfl running
    rw [show (files.map Measure.files.file).sum = files.length by
      rw [Measure.files, List.map_const', List.sum_replicate_nat, Nat.mul_one]] at all
    exact all
  · exact counted_closing valid made ascending (Measure.lawful_bytes fits) rfl running
  · exact counted_closing valid made ascending (Measure.lawful_chunks fits) rfl running
  · exact counted_closing valid made ascending (Measure.lawful_marked fits) rfl running
  · rw [Sign.modulus, Nat.modEq_zero_iff] at received
    exact (Counting.flushedSets_of_close sound.shaped sound.grouped closes).trans received

end Pass

end GramCensus
