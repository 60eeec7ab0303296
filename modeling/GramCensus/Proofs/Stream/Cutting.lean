import Mathlib.Algebra.Order.Floor.Div
import Mathlib.GroupTheory.GroupAction.Ring
import GramCensus.Proofs.Stream.Chunks

/-!
# What a stream is cut into

The chunks of a stream follow from its content and its ending alone (`Chunker.chunks_cut`). The chunk
with a number holds its share of new bytes behind the last bytes of all that comes before them; a
stream that ends by itself yields a last chunk of what is left, and one that fails yields its failure in
the place of it. How the content arrived, in which reads and with which interruptions, cannot be told
from the chunks. So it is also known which windows the chunks show, and where they stop for want of
memory (`Chunker.chunks_show_windows`).
-/

namespace GramCensus

namespace Bytes

theorem lastBytes_min (length : Nat) (bytes : Bytes) :
    lastBytes (min length bytes.length) bytes = lastBytes length bytes := by
  rw [lastBytes, lastBytes]
  congr 1
  omega

theorem lastBytes_append_of_le {length : Nat} {second : Bytes} (first : Bytes)
    (long : length ≤ second.length) :
    lastBytes length (first ++ second) = lastBytes length second := by
  rw [lastBytes, List.length_append, Nat.add_sub_assoc long, List.drop_length_add_append, lastBytes]

/-- The last bytes may be taken in two steps. -/
theorem lastBytes_append (length : Nat) (first second : Bytes) :
    lastBytes length (lastBytes length first ++ second) = lastBytes length (first ++ second) := by
  rcases Nat.le_total first.length length with short | long
  · rw [lastBytes_of_length_le short]
  · have enough : length ≤ (lastBytes length first ++ second).length := by
      rw [List.length_append, length_lastBytes]
      omega
    have whole : first ++ second =
        first.take (first.length - length) ++ (lastBytes length first ++ second) := by
      rw [lastBytes, ← List.append_assoc, List.take_append_drop]
    rw [whole, lastBytes_append_of_le _ enough]

end Bytes

namespace Stream

theorem length_content_le (stream : Stream) : stream.content.length ≤ byteCount stream := by
  fun_induction content stream with
  | case1 => exact Nat.zero_le _
  | case2 rest ih => simpa [byteCount, readSize] using ih
  | case3 => exact Nat.zero_le _
  | case4 => exact Nat.zero_le _
  | case5 => exact Nat.zero_le _
  | case6 bytes rest _ ih =>
    simp only [byteCount, readSize, List.map_cons, sumOf_cons, List.length_append] at ih ⊢
    omega

end Stream

namespace Chunker

open Bytes (windows)
open GramCensus.Stream (byteCount gather)

variable {stream : Stream} {size overlap k rounds : Nat} {chunker : Chunker}

/-! ## The share of a chunk -/

/-- The chunk with a number of a content: its new bytes behind the last bytes of what comes before
them. -/
def piece (content : Bytes) (size overlap i : Nat) : Bytes :=
  Bytes.lastBytes (min overlap (i * size)) (content.take (i * size)) ++
    (content.drop (i * size)).take size

/-- The number of chunks of a stream, of which the last one may be shorter if the stream ends by
itself. -/
def pieceCount (stream : Stream) (size : Nat) : Nat :=
  match stream.ending with
  | .ended | .full => stream.content.length ⌈/⌉ size
  | .failed _ | .broken => stream.content.length / size

/-- Behind its full chunks a content has one chunk more if any of it is left. -/
theorem ceilDiv_of_lt {count : Nat} (inside : k * size ≤ count) (few : count < (k + 1) * size) :
    count ⌈/⌉ size = if count = k * size then k else k + 1 := by
  rw [Nat.succ_mul] at few
  rw [Nat.ceilDiv_eq_add_pred_div]
  split
  · exact Nat.div_eq_of_lt_le (by omega) (by rw [Nat.succ_mul]; omega)
  · exact Nat.div_eq_of_lt_le (by rw [Nat.succ_mul]; omega) (by rw [Nat.succ_mul, Nat.succ_mul]; omega)

theorem pieceCount_of_ended (ended : stream.ending = .ended) :
    pieceCount stream size = stream.content.length ⌈/⌉ size := by
  rw [pieceCount, ended]

theorem pieceCount_of_not_ended (fails : stream.ending ≠ .ended) :
    pieceCount stream size = stream.content.length / size := by
  rw [pieceCount]
  split
  case h_1 ended => exact absurd ended fails
  case h_2 full => exact absurd full stream.ending_ne_full
  case h_3 => rfl
  case h_4 => rfl

theorem le_pieceCount (positive : 0 < size) (inside : k * size ≤ stream.content.length) :
    k ≤ pieceCount stream size := by
  have whole := (Nat.le_div_iff_mul_le positive).2 inside
  by_cases ended : stream.ending = .ended
  · rw [pieceCount_of_ended ended, Nat.ceilDiv_eq_add_pred_div]
    exact Nat.le_trans whole (Nat.div_le_div_right (by omega))
  · rwa [pieceCount_of_not_ended ended]

/-- What a stream yields behind its chunks. -/
def lastItems : Stream.Stop → List Chunk
  | .failed text => [.failed text]
  | .broken => [.broken]
  | .ended | .full => []

/-- A chunker behind the first `k` full chunks of a stream. -/
structure Behind (stream : Stream) (size overlap k : Nat) (chunker : Chunker) : Prop where
  running : chunker.done = false
  size_eq : chunker.size = size
  overlap_eq : chunker.overlap = overlap
  context_eq : chunker.context = Bytes.lastBytes overlap (stream.content.take (k * size))
  content_eq : chunker.stream.content = stream.content.drop (k * size)
  ending_eq : chunker.stream.ending = stream.ending
  inside : k * size ≤ stream.content.length

theorem behind_start (positive : 0 < size) : Behind stream size overlap 0 (start stream size overlap) where
  running := rfl
  size_eq := Nat.max_eq_left positive
  overlap_eq := rfl
  context_eq := by simp [start, Bytes.lastBytes]
  content_eq := by simp [start]
  ending_eq := rfl
  inside := by simp

/-- A chunk has at least one new byte, also where none is asked for. -/
theorem start_max (stream : Stream) (size overlap : Nat) :
    start stream (max size 1) overlap = start stream size overlap := by
  rw [start, start, Nat.max_assoc, Nat.max_self]

namespace Behind

theorem length_context (behind : Behind stream size overlap k chunker) :
    chunker.context.length = min overlap (k * size) := by
  rw [behind.context_eq, Bytes.length_lastBytes, List.length_take, Nat.min_eq_left behind.inside]

theorem append_eq_piece (behind : Behind stream size overlap k chunker) :
    chunker.context ++ chunker.stream.content.take size =
      piece stream.content size overlap k := by
  have held : (stream.content.take (k * size)).length = k * size := by
    rw [List.length_take, Nat.min_eq_left behind.inside]
  have last := Bytes.lastBytes_min overlap (stream.content.take (k * size))
  rw [held] at last
  rw [piece, behind.context_eq, behind.content_eq, last]

end Behind

section

variable [Memory]

/-- Memory for the bytes that are kept between chunks and for the chunk with a number. -/
def roomAt (size overlap i : Nat) : Except Failure Unit := do
  GramCensus.makeRoom .untouched overlap 1
  GramCensus.makeRoom .filled (min overlap (i * size) + size) 1

namespace Behind

theorem makeRoom_eq (behind : Behind stream size overlap k chunker) :
    chunker.makeRoom = roomAt size overlap k := by
  rw [makeRoom, roomAt, behind.overlap_eq, behind.length_context, behind.size_eq]

/-- A chunk that the content fills is the next piece of it. -/
theorem next_of_full (behind : Behind stream size overlap k chunker) (positive : 0 < size)
    (room : chunker.makeRoom = .ok ()) (enough : (k + 1) * size ≤ stream.content.length) :
    ∃ after, chunker.next = (some (.bytes (piece stream.content size overlap k)), after) ∧
      Behind stream size overlap (k + 1) after := by
  have left : size ≤ chunker.stream.content.length := by
    rw [behind.content_eq, List.length_drop]
    rw [Nat.succ_mul] at enough
    omega
  have more : stream.content.take ((k + 1) * size) =
      stream.content.take (k * size) ++ (stream.content.drop (k * size)).take size := by
    rw [Nat.succ_mul, List.take_add]
  rcases Stream.gather_of_length_le left with ⟨-, -, rest, same⟩
  rw [next, behind.running, if_neg Bool.false_ne_true, room]
  dsimp only
  rw [readNext_eq_full (by rwa [behind.size_eq]) (by rwa [behind.size_eq]), behind.size_eq,
    behind.append_eq_piece]
  refine ⟨_, rfl, {
    running := rfl
    size_eq := rfl
    overlap_eq := behind.overlap_eq
    context_eq := ?_
    content_eq := ?_
    ending_eq := same.trans behind.ending_eq
    inside := enough }⟩
  · dsimp only
    rw [← behind.append_eq_piece, behind.overlap_eq, behind.context_eq, Bytes.lastBytes_append,
      behind.content_eq, more]
  · rw [rest, behind.content_eq, List.drop_drop, Nat.succ_mul]

/-- Where the content cannot fill a chunk the stream ends, and so do the chunks. -/
theorem nextChunks_of_last (behind : Behind stream size overlap k chunker)
    (room : chunker.makeRoom = .ok ()) (few : stream.content.length < (k + 1) * size)
    (rounds : Nat) :
    ∃ after, chunker.nextChunks (rounds + 1) =
        ((List.range' k (pieceCount stream size - k)).map
          (fun i => .bytes (piece stream.content size overlap i)) ++ lastItems stream.ending, after) ∧
      after.done = true := by
  have inside := behind.inside
  have whole : stream.content.length / size = k := Nat.div_eq_of_lt_le inside few
  have left : chunker.stream.content.length = stream.content.length - k * size := by
    rw [behind.content_eq, List.length_drop]
  have short : chunker.stream.content.length < chunker.size := by
    rw [left, behind.size_eq]
    rw [Nat.succ_mul] at few
    omega
  have next_eq : chunker.next = chunker.readNext := by
    rw [next, behind.running, if_neg Bool.false_ne_true, room]
  rw [readNext_eq_last short] at next_eq
  have ending_eq := behind.ending_eq
  have none (fails : stream.ending ≠ .ended) : pieceCount stream size - k = 0 := by
    rw [pieceCount_of_not_ended fails, whole, Nat.sub_self]
  cases stop : stream.ending with
  | full => exact absurd stop stream.ending_ne_full
  | failed text =>
    rw [ending_eq, stop] at next_eq
    rw [none (by simp [stop])]
    exact ⟨_, nextChunks_of_item next_eq rfl rounds, rfl⟩
  | broken =>
    rw [ending_eq, stop] at next_eq
    rw [none (by simp [stop])]
    exact ⟨_, nextChunks_of_item next_eq rfl rounds, rfl⟩
  | ended =>
    rw [ending_eq, stop] at next_eq
    dsimp only at next_eq
    rw [pieceCount_of_ended stop, ceilDiv_of_lt inside few]
    by_cases empty : chunker.stream.content = []
    · -- The content was used up with the chunk before.
      rw [empty, List.length_nil] at left
      rw [empty] at next_eq
      rw [if_pos (by omega), Nat.sub_self]
      exact ⟨_, by rw [nextChunks, next_eq]; rfl, rfl⟩
    · have some := List.length_pos_iff.2 empty
      have last : chunker.context ++ chunker.stream.content =
          piece stream.content size overlap k := by
        rw [← behind.append_eq_piece, List.take_of_length_le (by rw [behind.size_eq] at short; omega)]
      rw [if_neg (by simpa using empty), last] at next_eq
      rw [if_neg (by omega), Nat.add_sub_cancel_left]
      exact ⟨_, nextChunks_of_item next_eq rfl rounds, rfl⟩

end Behind

/-! ## All chunks -/

theorem roomAt_eq_ok_iff {i : Nat} : roomAt size overlap i = .ok () ↔
    hasRoom .untouched overlap 1 = true ∧
      hasRoom .filled (min overlap (i * size) + size) 1 = true := by
  rw [← makeRoom_eq_ok_iff, ← makeRoom_eq_ok_iff, roomAt]
  cases GramCensus.makeRoom .untouched overlap 1 with
  | error => exact iff_of_false nofun nofun
  | ok => exact (and_iff_right rfl).symm

/-- In the place of a chunk without room its thread breaks down if more bytes are asked for than one
piece of memory has, and otherwise the program ends. -/
theorem refusal_roomAt_eq_broken_iff {i : Nat} (crowded : roomAt size overlap i ≠ .ok ()) :
    refusal (roomAt size overlap i) = .broken ↔
      mostBytes < overlap ∨
        hasRoom .untouched overlap 1 = true ∧ mostBytes < min overlap (i * size) + size := by
  have kept := @makeRoom_eq_noRoom_iff _ .untouched overlap 1
  have filled := @makeRoom_eq_noRoom_iff _ .filled (min overlap (i * size) + size) 1
  rw [Nat.mul_one] at kept filled
  rw [← makeRoom_eq_ok_iff, ← kept, ← filled]
  rw [roomAt] at crowded ⊢
  -- What is kept between chunks is asked for first.
  rcases makeRoom_cases .untouched overlap 1 with room | exhausted | noRoom
  · rw [room] at crowded ⊢
    rcases makeRoom_cases .filled (min overlap (i * size) + size) 1 with ok | exhausted | noRoom
    · exact absurd ok crowded
    · simp [exhausted, refusal, bind, Except.bind]
    · simp [noRoom, refusal, bind, Except.bind]
  · simp [exhausted, refusal, bind, Except.bind]
  · simp [noRoom, refusal, bind, Except.bind]

theorem refusal_roomAt {i : Nat} (crowded : roomAt size overlap i ≠ .ok ()) :
    refusal (roomAt size overlap i) =
      if mostBytes < overlap ∨
        hasRoom .untouched overlap 1 = true ∧ mostBytes < min overlap (i * size) + size
      then .broken else .exhausted := by
  have breaks := refusal_roomAt_eq_broken_iff crowded
  split
  case isTrue large => exact breaks.2 large
  case isFalse small => exact (refusal_cases _).resolve_left fun broken => small (breaks.1 broken)

/-- Later chunks need no less room. -/
theorem roomAt_mono {i : Nat} (earlier : k ≤ i) (room : roomAt size overlap i = .ok ()) :
    roomAt size overlap k = .ok () := by
  rw [roomAt_eq_ok_iff] at room ⊢
  have fewer : k * size ≤ i * size := Nat.mul_le_mul_right size earlier
  have filled := hasRoom_bytes.1 room.2
  exact ⟨room.1, hasRoom_bytes.2 (by omega)⟩

/-- What is still to come behind the first `k` chunks. Each step has the number of chunks before it
for the next one, so the pieces are those from `k` on. -/
theorem Behind.nextChunks (behind : Behind stream size overlap k chunker) (positive : 0 < size)
    (enough : stream.content.length < rounds + k * size) :
    (chunker.nextChunks rounds).2.done = true ∧
      (roomAt size overlap (stream.content.length / size) = .ok () →
        (chunker.nextChunks rounds).1 = (List.range' k (pieceCount stream size - k)).map
          (fun i => .bytes (piece stream.content size overlap i)) ++ lastItems stream.ending) ∧
      (roomAt size overlap (stream.content.length / size) ≠ .ok () →
        ∃ count, k + count ≤ stream.content.length / size ∧
          (∀ i < k + count, k ≤ i → roomAt size overlap i = .ok ()) ∧
          roomAt size overlap (k + count) ≠ .ok () ∧
          (chunker.nextChunks rounds).1 = (List.range' k count).map
            (fun i => .bytes (piece stream.content size overlap i)) ++
              [refusal (roomAt size overlap (k + count))]) := by
  induction rounds generalizing k chunker with
  | zero => exact absurd enough (by have := behind.inside; omega)
  | succ rounds ih =>
    have whole := (Nat.le_div_iff_mul_le positive).2 behind.inside
    by_cases room : roomAt size overlap k = .ok ()
    case neg =>
      have next_eq := next_of_crowded behind.running (by rwa [behind.makeRoom_eq])
      rw [behind.makeRoom_eq] at next_eq
      rw [nextChunks_of_item next_eq rfl]
      refine ⟨rfl, fun enoughRoom => absurd (roomAt_mono whole enoughRoom) room, fun _ =>
        ⟨0, whole, fun i before later => absurd before (Nat.not_lt.2 later), room, rfl⟩⟩
    case pos =>
      by_cases more : (k + 1) * size ≤ stream.content.length
      · rcases behind.next_of_full positive (behind.makeRoom_eq.trans room) more with
          ⟨after, next_eq, further⟩
        rcases ih further (by rw [Nat.succ_mul]; omega) with ⟨done, all, beginning⟩
        have rest : pieceCount stream size - k = pieceCount stream size - (k + 1) + 1 := by
          have := le_pieceCount positive more
          omega
        simp only [Chunker.nextChunks, next_eq]
        refine ⟨done, fun enoughRoom => ?_, fun crowded => ?_⟩
        · rw [all enoughRoom, rest, List.range'_succ]
          rfl
        · rcases beginning crowded with ⟨count, few, roomy, refused, run⟩
          rw [Nat.add_right_comm] at few roomy refused run
          refine ⟨count + 1, few, ?_, refused, ?_⟩
          · intro i before later
            rcases Nat.eq_or_lt_of_le later with rfl | further
            · exact room
            · exact roomy i before further
          · rw [run, List.range'_succ]
            rfl
      · have few := Nat.lt_of_not_le more
        rcases behind.nextChunks_of_last (behind.makeRoom_eq.trans room) few rounds with
          ⟨after, run, done⟩
        rw [run]
        refine ⟨done, fun _ => rfl, fun crowded => absurd ?_ crowded⟩
        rwa [Nat.div_eq_of_lt_le behind.inside few]

/-- What a stream yields, and the chunker behind it. Where the last chunk that can be filled has room
all of the stream is cut, and otherwise what comes before the first chunk without room. -/
structure Cuts (stream : Stream) (size overlap : Nat) (read : List Chunk × Chunker) : Prop where
  whole : roomAt size overlap (stream.content.length / size) = .ok () →
    read.1 = (List.range (pieceCount stream size)).map
      (fun i => .bytes (piece stream.content size overlap i)) ++ lastItems stream.ending
  beginning : roomAt size overlap (stream.content.length / size) ≠ .ok () →
    ∃ i ≤ stream.content.length / size,
      (∀ j < i, roomAt size overlap j = .ok ()) ∧ roomAt size overlap i ≠ .ok () ∧
        read.1 = (List.range i).map (fun j => .bytes (piece stream.content size overlap j)) ++
          [refusal (roomAt size overlap i)]
  finished : read.2.next = (none, read.2)

theorem cuts_chunks (positive : 0 < size) (stream : Stream) (overlap : Nat) :
    Cuts stream size overlap (start stream size overlap).chunks := by
  have behind : Behind stream size overlap 0 (start stream size overlap) := behind_start positive
  have enough : stream.content.length < (start stream size overlap).enough + 0 * size := by
    have := stream.length_content_le
    rw [Nat.zero_mul]
    exact Nat.lt_succ_of_lt (Nat.lt_succ_of_le this)
  obtain ⟨done, whole, beginning⟩ := behind.nextChunks positive enough
  refine ⟨fun room => ?_, fun crowded => ?_, next_of_done done⟩
  · rw [List.range_eq_range']
    exact whole room
  · rcases beginning crowded with ⟨i, few, roomy, refused, run⟩
    rw [Nat.zero_add] at few roomy refused run
    refine ⟨i, few, fun j before => roomy j before (Nat.zero_le j), refused, ?_⟩
    rw [List.range_eq_range']
    exact run

/-- What is yielded follows from the content and the ending. -/
theorem Cuts.unique {other : Stream} {read again : List Chunk × Chunker}
    (cuts : Cuts stream size overlap read) (recut : Cuts other size overlap again)
    (content_eq : other.content = stream.content) (ending_eq : other.ending = stream.ending) :
    again.1 = read.1 := by
  by_cases room : roomAt size overlap (stream.content.length / size) = .ok ()
  · rw [cuts.whole room, recut.whole (by rwa [content_eq]), pieceCount, pieceCount, content_eq,
      ending_eq]
  · rcases cuts.beginning room with ⟨i, -, before, refused, run⟩
    rcases recut.beginning (by rwa [content_eq]) with ⟨j, -, earlier, crowded, rerun⟩
    -- Both stop at the first chunk without room.
    obtain rfl : j = i := by
      rcases Nat.lt_trichotomy j i with less | same | more
      · exact absurd (before j less) crowded
      · exact same
      · exact absurd (earlier i more) refused
    rw [run, rerun, content_eq]

/-- The chunks of a stream that ends by itself show the windows of its content in order and each of
them once. They show all of them, and then the chunker has nothing more to yield, unless a chunk
breaks down. None does if there is room for what is kept between chunks and for the last chunk that
can be filled. Otherwise the chunks are the pieces of the content up to the first one without room.
In its place the thread breaks down, if more is asked for than one piece of memory has, or the program
ends. -/
theorem chunks_show_windows {stream : Stream} (ended : stream.ending = .ended)
    (size overlap : Nat) :
    let read := (start stream size overlap).chunks
    let share := max size 1
    (read.1.flatMap fun chunk => windows (overlap + 1) chunk.content) <+:
        windows (overlap + 1) stream.content ∧
      ((∀ chunk ∈ read.1, ∃ bytes, chunk = .bytes bytes) →
        (read.1.flatMap fun chunk => windows (overlap + 1) chunk.content) =
            windows (overlap + 1) stream.content ∧ read.2.next.1 = none) ∧
      (roomAt share overlap (stream.content.length / share) = .ok () →
        ∀ chunk ∈ read.1, ∃ bytes, chunk = .bytes bytes) ∧
      (roomAt share overlap (stream.content.length / share) ≠ .ok () →
        ∃ i ≤ stream.content.length / share,
          (∀ j < i, roomAt share overlap j = .ok ()) ∧ roomAt share overlap i ≠ .ok () ∧
          read.1 = (List.range i).map (fun j => .bytes (piece stream.content share overlap j)) ++
            [if mostBytes < overlap ∨
              hasRoom .untouched overlap 1 = true ∧ mostBytes < min overlap (i * share) + share
            then .broken else .exhausted]) := by
  have pending : (start stream size overlap).pending = stream.content := by
    simp [Chunker.pending, start, Stream.delivered, ended]
  have shows := @shows_nextChunks (start stream size overlap) _ (start stream size overlap).enough
    (Nat.le_max_right _ _) (Nat.zero_le _) ((ending_of_not_done rfl).trans ended)
    (Nat.lt_succ_of_lt (Nat.lt_succ_self _))
  rw [pending] at shows
  have cuts := cuts_chunks (Nat.le_max_right size 1) stream overlap
  rw [start_max] at cuts
  refine ⟨shows.inOrder, shows.complete, fun room chunk member => ?_, fun crowded => ?_⟩
  · rw [cuts.whole room, ended, lastItems, List.append_nil] at member
    rcases List.mem_map.1 member with ⟨i, -, rfl⟩
    exact ⟨_, rfl⟩
  · rcases cuts.beginning crowded with ⟨i, inside, before, refused, run⟩
    rw [refusal_roomAt refused] at run
    exact ⟨i, inside, before, refused, run⟩

end

-- What follows runs where all memory can be had, and `chunks_cut` in any memory.
attribute [local instance] Memory.whole

/-- With an overlap of two, chunks of one new byte each show both windows of four bytes that arrive
in three reads. -/
theorem chunks_show_windows_of_single_bytes :
    ((start [.data [97], .interrupted, .data [98, 99], .interrupted, .data [100]] 1 2).chunks.1.flatMap
      fun chunk => windows 3 chunk.content) = [[97, 98, 99], [98, 99, 100]] := by
  obtain ⟨-, complete, roomy, -⟩ := @chunks_show_windows _
    [.data [97], .interrupted, .data [98, 99], .interrupted, .data [100]] rfl 1 2
  exact (complete (roomy (by decide))).1

/-- Chunks for which no memory can be had show nothing. -/
theorem chunks_without_room_show_nothing :
    Stream.ending (Stream.ofBytes [97, 98, 99]) = .ended ∧
      (start (Stream.ofBytes [97, 98, 99]) (2 ^ 64 - 1) 1).chunks.1 = [.broken] ∧
      ((start (Stream.ofBytes [97, 98, 99]) (2 ^ 64 - 1) 1).chunks.1.flatMap
        fun chunk => windows 2 chunk.content) ≠
          windows 2 (Stream.content (Stream.ofBytes [97, 98, 99])) := by
  decide

/-- The chunks of a stream are the pieces of its content in order, behind them its failure if it
fails, and then nothing, for ever, without another read. They are cut short only by a chunk for which
no memory can be had. Streams of the same content and the same ending yield the same. -/
theorem chunks_cut [Memory] (positive : 0 < size) (stream : Stream) (overlap : Nat) :
    Cuts stream size overlap (start stream size overlap).chunks ∧
      ∀ other : Stream, other.content = stream.content → other.ending = stream.ending →
        (start other size overlap).chunks.1 = (start stream size overlap).chunks.1 := by
  refine ⟨cuts_chunks positive stream overlap, fun other content_eq ending_eq => ?_⟩
  exact (cuts_chunks positive stream overlap).unique (cuts_chunks positive other overlap)
    content_eq ending_eq

/-- A stream that fails within its second chunk yields the first one, in whatever reads it
arrives. -/
theorem chunks_cut_of_failing_read :
    0 < 2 ∧
      (start [.data [97, 98], .interrupted, .data [99], .failure "gone"] 2 1).chunks.1 =
        [.bytes [97, 98], .failed "gone"] ∧
      (start [.interrupted, .data [97], .data [98, 99], .failure "gone", .data [100]] 2 1).chunks.1 =
        [.bytes [97, 98], .failed "gone"] := by
  rcases chunks_cut (Nat.zero_lt_two) [.data [97, 98], .interrupted, .data [99], .failure "gone"] 1
    with ⟨cuts, alike⟩
  have whole := cuts.whole rfl
  exact ⟨Nat.zero_lt_two, whole, (alike _ rfl rfl).trans whole⟩

/-- Of three bytes there are two chunks, but none is yielded if no memory can hold what is kept
between them. -/
theorem chunks_without_room_for_overlap :
    Stream.ending (Stream.ofBytes [97, 98, 99]) = .ended ∧
      pieceCount (Stream.ofBytes [97, 98, 99]) 2 = 2 ∧
      piece [97, 98, 99] 2 (2 ^ 63) 0 = [97, 98] ∧ piece [97, 98, 99] 2 (2 ^ 63) 1 = [97, 98, 99] ∧
      (start (Stream.ofBytes [97, 98, 99]) 2 (2 ^ 63)).chunks.1 = [.broken] := by
  decide

end Chunker

end GramCensus
