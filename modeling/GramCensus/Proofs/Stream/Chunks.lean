import Mathlib.Algebra.GroupWithZero.Nat
import GramCensus.Proofs.Stream.Delivery

/-!
# The windows of chunks

Read one chunk after the other, the windows of a stream's chunks are the windows of its content: each
of them once, and in order, whatever the sizes of the reads and of the chunks are. Of a stream that
ends by itself nothing is left out unless a chunk breaks down for want of memory, and even then no
window is shown twice or in another's place (`Chunker.shows_nextChunks`).
-/

namespace GramCensus

open Bytes (windows)

/-- The bytes of a chunk. In place of a chunk that could not be read there are none. -/
def Chunk.content : Chunk → Bytes
  | .bytes held => held
  | _ => []

namespace Chunker

open GramCensus.Stream (byteCount)

variable {chunker after : Chunker}

/-! ## The windows that chunks show -/

/-- The windows of some chunks, one chunk after the other. -/
def shown (width : Nat) (chunks : List Chunk) : List Bytes :=
  chunks.flatMap fun chunk => windows width chunk.content

theorem shown_cons (width : Nat) (chunk : Chunk) (chunks : List Chunk) :
    shown width (chunk :: chunks) = windows width chunk.content ++ shown width chunks :=
  List.flatMap_cons

/-! ## The end of a chunker -/

/-- What a chunker yields in the place of a chunk that it has no room for. -/
def refusal : Except Failure Unit → Chunk
  | .error .exhausted => .exhausted
  | _ => .broken

theorem refusal_cases (room : Except Failure Unit) :
    refusal room = .broken ∨ refusal room = .exhausted := by
  unfold refusal
  split
  · exact .inr rfl
  · exact .inl rfl

variable [Memory]

theorem next_of_done (done : chunker.done = true) : chunker.next = (none, chunker) := by
  rw [next, if_pos done]

theorem nextChunks_of_done (done : chunker.done = true) (rounds : Nat) :
    chunker.nextChunks rounds = ([], chunker) := by
  cases rounds with
  | zero => rfl
  | succ rounds => rw [nextChunks, next_of_done done]

/-- An item behind which a chunker is done is the last one. -/
theorem nextChunks_of_item {item : Chunk} {after : Chunker} (next_eq : chunker.next = (some item, after))
    (done : after.done = true) (rounds : Nat) : chunker.nextChunks (rounds + 1) = ([item], after) := by
  simp only [nextChunks, next_eq, nextChunks_of_done done]

/-- A chunker that has nothing more to yield stays so. -/
theorem done_of_next_eq_none (ended : chunker.next = (none, after)) : after.done = true := by
  rw [next] at ended
  split at ended
  case isTrue done =>
    cases ended
    exact done
  case isFalse =>
    split at ended
    case h_2 => cases ended
    case h_3 => cases ended
    case h_1 =>
      rw [readNext] at ended
      dsimp only at ended
      split at ended
      · cases ended
      · cases ended
      · split at ended
        · cases ended
          rfl
        · cases ended

/-- A chunk that has no room breaks down, and is the last one. -/
theorem next_of_crowded (running : chunker.done = false) (crowded : chunker.makeRoom ≠ .ok ()) :
    chunker.next = (some (refusal chunker.makeRoom), { chunker with done := true }) := by
  unfold next refusal
  rw [if_neg (by simp [running])]
  split
  case h_1 room => exact absurd room crowded
  case h_2 room => rw [room]
  case h_3 other room =>
    rw [room]
    split
    case h_1 same => exact absurd (Except.error.inj same) other
    case h_2 => rfl

/-! ## Chunk after chunk -/

/-- What chunks show of some windows. -/
structure Shows (all : List Bytes) (width : Nat) (read : List Chunk × Chunker) : Prop where
  inOrder : shown width read.1 <+: all
  complete : (∀ chunk ∈ read.1, ∃ bytes, chunk = .bytes bytes) →
    shown width read.1 = all ∧ read.2.next.1 = none

/-- A chunk of new bytes shows the windows that end in it, and the chunks behind it the others. -/
theorem Shows.cons {new rest : Bytes} {overlap : Nat} {context : Bytes}
    {read : List Chunk × Chunker}
    (behind : Shows (windows (overlap + 1) (Bytes.lastBytes overlap (context ++ new) ++ rest))
      (overlap + 1) read) :
    Shows (windows (overlap + 1) (context ++ (new ++ rest))) (overlap + 1)
      (.bytes (context ++ new) :: read.1, read.2) := by
  have cut : windows (overlap + 1) (context ++ (new ++ rest)) =
      windows (overlap + 1) (context ++ new) ++
        windows (overlap + 1) (Bytes.lastBytes overlap (context ++ new) ++ rest) := by
    rw [← List.append_assoc, Bytes.windows_append]
  constructor
  · rw [shown_cons, cut]
    exact List.prefix_append_right_inj _ |>.2 behind.inOrder
  · intro all
    rcases behind.complete fun chunk member => all chunk (List.mem_cons_of_mem _ member) with
      ⟨same, ended⟩
    refine ⟨?_, ended⟩
    rw [shown_cons, cut]
    exact congrArg _ same

/-- The chunks that are still to come of a stream that ends by itself show the windows of what is
pending, behind the last bytes of what came before. -/
theorem shows_nextChunks {rounds : Nat} (positive : 0 < chunker.size)
    (context : chunker.context.length ≤ chunker.overlap) (ended : chunker.ending = .ended)
    (enough : byteCount chunker.stream < rounds) :
    Shows (windows (chunker.overlap + 1) (chunker.context ++ chunker.pending))
      (chunker.overlap + 1) (chunker.nextChunks rounds) := by
  induction rounds generalizing chunker with
  | zero => exact absurd enough (Nat.not_lt_zero _)
  | succ rounds ih =>
    by_cases crowded : chunker.done = false ∧ chunker.makeRoom ≠ .ok ()
    · -- The chunk breaks down, and the chunker is done with it.
      have next_eq := next_of_crowded crowded.1 crowded.2
      have breaks := refusal_cases chunker.makeRoom
      generalize refusal chunker.makeRoom = chunk at next_eq breaks
      have empty : chunk.content = [] := by rcases breaks with rfl | rfl <;> rfl
      have noBytes : ∀ bytes, chunk ≠ .bytes bytes := by rcases breaks with rfl | rfl <;> simp
      rw [nextChunks_of_item next_eq rfl]
      constructor
      · rw [shown_cons, empty]
        exact List.nil_prefix
      · intro all
        rcases all chunk List.mem_cons_self with ⟨bytes, same⟩
        exact absurd same (noBytes bytes)
    · have step := step_next positive
      generalize result_eq : chunker.next = result at step
      simp only [nextChunks, result_eq]
      cases step with
      | @bytes new after advances =>
        have shorter := advances.shorter
        have some : 0 < new.length := List.length_pos_iff.2 advances.nonempty
        have shows := @ih after (by rw [advances.size_eq]; exact positive)
          (by
            rw [advances.context_eq, Bytes.length_lastBytes, advances.overlap_eq]
            exact Nat.min_le_left _ _)
          (advances.ending_eq.trans ended) (by omega)
        rw [advances.overlap_eq, advances.context_eq] at shows
        rw [advances.pending_eq]
        exact shows.cons
      | @ended after none =>
        -- What is left of the context is too short for a window.
        have short : windows (chunker.overlap + 1) (chunker.context ++ chunker.pending) = [] := by
          rw [none, List.append_nil, Bytes.windows_eq_nil (Nat.lt_succ_of_le context)]
        rw [short]
        refine ⟨List.nil_prefix, fun _ => ⟨rfl, ?_⟩⟩
        rw [next_of_done (done_of_next_eq_none result_eq)]
      | failed none stop =>
        rw [ended] at stop
        cases stop
      | broken stop =>
        rw [ended] at stop
        cases stop
      | crowded noBytes noFailure running room => exact absurd ⟨running, room⟩ crowded

end Chunker

end GramCensus
