import GramCensus.Proofs.Stream.Windows
import GramCensus.Stream

/-!
# What a stream delivers

A stream has a content, the bytes before its first ending, and an ending: it stops by itself, it
fails, or it breaks down. Chunks of some size deliver the whole content of a stream that ends by
itself, and otherwise as many whole chunks of it as there are (`Stream.delivered`). How the content
is cut into reads, and how often a read is interrupted, makes no difference.

Main statements:
- `Stream.gather_of_length_le`, `Stream.gather_of_lt_length`: filling a buffer takes the next bytes
  of the content;
- `Chunker.step_next`: every chunk takes the next new bytes off what is still pending, behind the
  last bytes of what came before, and nothing else happens before the end of the stream.
-/

namespace GramCensus

namespace Stream

/-! ## Contents and endings -/

/-- The bytes of a stream up to its ending. -/
def content : Stream → Bytes
  | [] => []
  | .interrupted :: rest => content rest
  | .failure _ :: _ => []
  | .fault :: _ => []
  | .data bytes :: rest => if bytes.isEmpty then [] else bytes ++ content rest

/-- Why there are no more bytes behind the content of a stream. -/
def ending : Stream → Stop
  | [] => .ended
  | .interrupted :: rest => ending rest
  | .failure text :: _ => .failed text
  | .fault :: _ => .broken
  | .data bytes :: rest => if bytes.isEmpty then .ended else ending rest

/-- The bytes of a stream that chunks of `size` new bytes deliver: all of its content if it ends by
itself, and otherwise those of the chunks that could be filled. -/
def delivered (size : Nat) (stream : Stream) : Bytes :=
  match stream.ending with
  | .ended | .full => stream.content
  | .failed _ | .broken => stream.content.take (stream.content.length / size * size)

theorem ending_ne_full (stream : Stream) : stream.ending ≠ .full := by
  fun_induction ending stream <;> simp_all

@[simp] theorem ending_ofBytes (bytes : Bytes) : ending (ofBytes bytes) = .ended := by
  cases bytes <;> simp [ofBytes, ending]

@[simp] theorem delivered_ofBytes (size : Nat) (bytes : Bytes) :
    delivered size (ofBytes bytes) = bytes := by
  cases bytes <;> simp [delivered, ofBytes, content, ending]

/-! ## Filling a buffer -/

/-- A buffer that the content can fill takes its first bytes and leaves the rest of the stream. -/
theorem gather_of_length_le {room : Nat} {stream : Stream}
    (enough : room ≤ stream.content.length) :
    (gather room stream).bytes = stream.content.take room ∧
      (gather room stream).stop = .full ∧
      (gather room stream).rest.content = stream.content.drop room ∧
      (gather room stream).rest.ending = stream.ending := by
  fun_induction gather room stream with
  | case1 stream => simp
  | case2 room => simp [content] at enough
  | case3 room rest ih => simpa [content, ending] using ih (by simpa [content] using enough)
  | case4 room text rest => simp [content] at enough
  | case5 room rest => simp [content] at enough
  | case6 room bytes rest empty => simp [content, empty] at enough
  | case7 room bytes rest nonempty none gathered ih =>
    -- The read is used up, and the buffer goes on with what is behind it.
    have short : bytes.length ≤ room + 1 := List.drop_eq_nil_iff.1 none
    simp only [content, ending, nonempty, Bool.false_eq_true, if_false,
      List.length_append] at enough ⊢
    rcases ih (by omega) with ⟨taken, full, left, same⟩
    refine ⟨?_, full, ?_, same⟩
    · rw [List.take_append, List.take_of_length_le short]
      exact congrArg (bytes ++ ·) taken
    · rw [List.drop_append, none, List.nil_append]
      exact left
  | case8 room bytes rest nonempty left =>
    -- The read is longer than the buffer, and its rest stays in the stream.
    have long : room + 1 < bytes.length :=
      Nat.lt_of_not_le fun short => left (List.drop_eq_nil_iff.2 short)
    have held : (bytes.drop (room + 1)).isEmpty = false := by
      simp only [List.isEmpty_eq_false_iff, ne_eq]
      exact left
    simp only [content, ending, nonempty, held, Bool.false_eq_true, if_false]
    refine ⟨?_, trivial, ?_, trivial⟩
    · rw [List.take_append_of_le_length (by omega)]
    · rw [List.drop_append_of_le_length (by omega)]

/-- A buffer that the content cannot fill takes all of it, and learns how the stream ends. -/
theorem gather_of_lt_length {room : Nat} {stream : Stream}
    (few : stream.content.length < room) :
    (gather room stream).bytes = stream.content ∧ (gather room stream).stop = stream.ending := by
  fun_induction gather room stream with
  | case1 stream => exact absurd few (Nat.not_lt_zero _)
  | case2 room => simp [content, ending]
  | case3 room rest ih => simpa [content, ending] using ih (by simpa [content] using few)
  | case4 room text rest => simp [content, ending]
  | case5 room rest => simp [content, ending]
  | case6 room bytes rest empty => simp [content, ending, empty]
  | case7 room bytes rest nonempty none gathered ih =>
    simp only [content, ending, nonempty, Bool.false_eq_true, if_false,
      List.length_append] at few ⊢
    rcases ih (by omega) with ⟨taken, stop⟩
    exact ⟨congrArg (bytes ++ ·) taken, stop⟩
  | case8 room bytes rest nonempty left =>
    simp only [content, nonempty, Bool.false_eq_true, if_false, List.length_append] at few
    exact absurd (List.drop_eq_nil_iff.2 (by omega)) left

/-- What is read is gone from what is still to come. -/
theorem length_gather_add_byteCount_le (room : Nat) (stream : Stream) :
    (gather room stream).bytes.length + byteCount (gather room stream).rest ≤
      byteCount stream := by
  fun_induction gather room stream with
  | case1 stream => simp
  | case2 room => simp [byteCount]
  | case3 room rest ih => simpa [byteCount, readSize] using ih
  | case4 room text rest => simp [byteCount, readSize]
  | case5 room rest => simp [byteCount, readSize]
  | case6 room bytes rest empty => simp [byteCount]
  | case7 room bytes rest nonempty none gathered ih =>
    simp only [byteCount, readSize, List.map_cons, sumOf_cons, List.length_append] at ih ⊢
    have fewer : gathered.bytes.length + sumOf (List.map readSize gathered.rest) ≤
      sumOf (List.map readSize rest) := ih
    omega
  | case8 room bytes rest nonempty left =>
    simp only [byteCount, readSize, List.map_cons, sumOf_cons, List.length_take,
      List.length_drop]
    omega

/-- What is delivered begins with the first chunk that can be filled, and goes on with what the rest
of the stream delivers. -/
theorem delivered_eq_append {size : Nat} {stream rest : Stream}
    (positive : 0 < size) (enough : size ≤ stream.content.length)
    (left : rest.content = stream.content.drop size) (same : rest.ending = stream.ending) :
    delivered size stream = stream.content.take size ++ delivered size rest := by
  have count := Nat.div_eq_sub_div positive enough
  simp only [delivered, same, left, List.length_drop, count, Nat.succ_mul]
  split
  · rw [List.take_append_drop]
  · rw [List.take_append_drop]
  · rw [Nat.add_comm, List.take_add]
  · rw [Nat.add_comm, List.take_add]

/-- A stream whose content fills no chunk delivers its content only where it ends by itself. -/
theorem delivered_of_lt_length {size : Nat} {stream : Stream} (few : stream.content.length < size) :
    delivered size stream = if stream.ending = .ended then stream.content else [] := by
  have none : stream.content.length / size = 0 := Nat.div_eq_of_lt few
  cases stop : stream.ending with
  | full => exact absurd stop stream.ending_ne_full
  | ended => simp [delivered, stop]
  | failed text => simp [delivered, stop, none]
  | broken => simp [delivered, stop, none]

end Stream

namespace Chunker

open GramCensus.Stream (gather byteCount)

/-! ## The steps of a chunker -/

/-- The bytes that a chunker will still deliver. -/
def pending (chunker : Chunker) : Bytes :=
  if chunker.done then [] else chunker.stream.delivered chunker.size

/-- How the stream of a chunker will end, as far as the chunker will notice. -/
def ending (chunker : Chunker) : Stream.Stop :=
  if chunker.done then .ended else chunker.stream.ending

variable {chunker : Chunker}

theorem pending_of_not_done (running : chunker.done = false) :
    chunker.pending = chunker.stream.delivered chunker.size := by
  simp [pending, running]

theorem ending_of_not_done (running : chunker.done = false) :
    chunker.ending = chunker.stream.ending := by
  simp [ending, running]

/-- A chunk that can be filled is filled. -/
theorem readNext_eq_full (positive : 0 < chunker.size)
    (enough : chunker.size ≤ chunker.stream.content.length) :
    chunker.readNext =
      (some (.bytes (chunker.context ++ chunker.stream.content.take chunker.size)),
        { chunker with
          context := Bytes.lastBytes chunker.overlap
            (chunker.context ++ chunker.stream.content.take chunker.size)
          stream := (gather chunker.size chunker.stream).rest
          done := false }) := by
  rcases Stream.gather_of_length_le enough with ⟨bytes, stop, -, -⟩
  have filled : (chunker.stream.content.take chunker.size).length = chunker.size := by
    rw [List.length_take, Nat.min_eq_left enough]
  have nonempty : (chunker.stream.content.take chunker.size).isEmpty = false := by
    rw [List.isEmpty_eq_false_iff]
    intro empty
    rw [empty] at filled
    exact absurd filled (Nat.ne_of_lt positive)
  simp only [readNext, stop, bytes, nonempty, filled, Bool.false_eq_true, if_false,
    Bytes.lastBytes, Nat.lt_irrefl, decide_false]

/-- A chunk that cannot be filled is the last one of a stream that ends by itself, and is lost
otherwise. -/
theorem readNext_eq_last
    (few : chunker.stream.content.length < chunker.size) :
    chunker.readNext =
      let rest := (gather chunker.size chunker.stream).rest
      match chunker.stream.ending with
      | .failed text => (some (.failed text), { chunker with stream := rest, done := true })
      | .broken => (some .broken, { chunker with stream := rest, done := true })
      | .ended | .full =>
        if chunker.stream.content.isEmpty then (none, { chunker with stream := rest, done := true })
        else
          (some (.bytes (chunker.context ++ chunker.stream.content)),
            { chunker with
              context := Bytes.lastBytes chunker.overlap (chunker.context ++ chunker.stream.content)
              stream := rest
              done := true }) := by
  rcases Stream.gather_of_lt_length few with ⟨bytes, stop⟩
  simp only [readNext, stop, bytes, few, decide_true, Bytes.lastBytes]
  cases chunker.stream.ending <;> rfl

/-! ## What a step yields -/

variable [Memory]

/-- There is room for all chunks that a chunker will still read. -/
def Roomy (chunker : Chunker) : Prop :=
  chunker.done = true ∨
    hasRoom .untouched chunker.overlap 1 = true ∧
      hasRoom .filled (min chunker.overlap (chunker.context.length +
        chunker.stream.content.length / chunker.size * chunker.size) + chunker.size) 1 = true

/-- A chunk of some new bytes takes a chunker from one state to another. -/
structure Advances (before : Chunker) (new : Bytes) (after : Chunker) : Prop where
  nonempty : new ≠ []
  pending_eq : before.pending = new ++ after.pending
  context_eq : after.context = Bytes.lastBytes before.overlap (before.context ++ new)
  size_eq : after.size = before.size
  overlap_eq : after.overlap = before.overlap
  ending_eq : after.ending = before.ending
  shorter : new.length + byteCount after.stream ≤ byteCount before.stream
  roomy : before.Roomy → after.Roomy
  filled : new.length = before.size ∨ new.length < before.size ∧ after.pending = []

/-- What a chunker yields and the state it leaves, with the reason. -/
inductive Step (chunker : Chunker) : Option Chunk × Chunker → Prop where
  /-- There are some more bytes. -/
  | bytes {new : Bytes} {after : Chunker} :
      chunker.Advances new after → Step chunker (some (.bytes (chunker.context ++ new)), after)
  /-- The stream has ended by itself, now or before. -/
  | ended {after : Chunker} :
      chunker.pending = [] → chunker.ending = .ended → Step chunker (none, after)
  | failed {text : String} {after : Chunker} :
      chunker.pending = [] → chunker.ending = .failed text →
        Step chunker (some (.failed text), after)
  | broken {after : Chunker} :
      chunker.ending = .broken → Step chunker (some .broken, after)
  /-- There is no room for the chunk. -/
  | crowded {chunk : Chunk} {after : Chunker} :
      (∀ bytes, chunk ≠ .bytes bytes) → (∀ text, chunk ≠ .failed text) →
        chunker.done = false → chunker.makeRoom ≠ .ok () → Step chunker (some chunk, after)

theorem roomy_full {after : Chunker} (running : chunker.done = false)
    (positive : 0 < chunker.size) (enough : chunker.size ≤ chunker.stream.content.length)
    (size_eq : after.size = chunker.size) (overlap_eq : after.overlap = chunker.overlap)
    (context : after.context.length ≤ min chunker.overlap (chunker.context.length + chunker.size))
    (left : after.stream.content = chunker.stream.content.drop chunker.size)
    (roomy : chunker.Roomy) : after.Roomy := by
  rcases roomy with done | ⟨kept, filled⟩
  · rw [running] at done
    cases done
  · have count := Nat.div_eq_sub_div positive enough
    refine .inr ⟨by rw [overlap_eq]; exact kept, ?_⟩
    rw [hasRoom_bytes] at filled ⊢
    rw [count, Nat.succ_mul] at filled
    rw [size_eq, overlap_eq, left, List.length_drop]
    omega

theorem step_of_full (positive : 0 < chunker.size) (running : chunker.done = false)
    (enough : chunker.size ≤ chunker.stream.content.length) : chunker.Step chunker.readNext := by
  have gone := Stream.length_gather_add_byteCount_le chunker.size chunker.stream
  rcases Stream.gather_of_length_le enough with ⟨bytes, -, left, same⟩
  have filled : (chunker.stream.content.take chunker.size).length = chunker.size := by
    rw [List.length_take, Nat.min_eq_left enough]
  rw [readNext_eq_full positive enough]
  refine .bytes {
    nonempty := ?_, pending_eq := ?_, context_eq := rfl, size_eq := rfl, overlap_eq := rfl,
    ending_eq := ?_, shorter := ?_, roomy := ?_, filled := .inl filled }
  · intro empty
    rw [empty] at filled
    exact absurd filled (Nat.ne_of_lt positive)
  · rw [pending_of_not_done running]
    exact Stream.delivered_eq_append positive enough left same
  · rw [ending_of_not_done running]
    exact same
  · rw [← bytes]
    exact gone
  · refine roomy_full running positive enough rfl rfl ?_ left
    exact Nat.le_of_eq (by rw [Bytes.length_lastBytes, List.length_append, filled])

/-- Where no chunk can be filled, what happens depends on how the stream ends. -/
theorem step_of_last (running : chunker.done = false)
    (few : chunker.stream.content.length < chunker.size) : chunker.Step chunker.readNext := by
  have gone := Stream.length_gather_add_byteCount_le chunker.size chunker.stream
  rcases Stream.gather_of_lt_length few with ⟨bytes, -⟩
  have delivered := Stream.delivered_of_lt_length few
  rw [← pending_of_not_done running, ← ending_of_not_done running] at delivered
  rw [readNext_eq_last few]
  cases stop : chunker.stream.ending with
  | full => exact absurd stop chunker.stream.ending_ne_full
  | failed text =>
    rw [← ending_of_not_done running] at stop
    exact .failed (by simpa [stop] using delivered) stop
  | broken =>
    rw [← ending_of_not_done running] at stop
    exact .broken stop
  | ended =>
    rw [← ending_of_not_done running] at stop
    simp only [stop, if_true] at delivered
    dsimp only
    -- Without new bytes the stream is over; with some, they make the last chunk.
    split
    case isTrue empty => exact .ended (by rw [delivered]; simpa using empty) stop
    case isFalse nonempty =>
      refine .bytes {
        nonempty := ?_, pending_eq := ?_, context_eq := rfl, size_eq := rfl, overlap_eq := rfl,
        ending_eq := ?_, shorter := ?_, roomy := ?_, filled := .inr ⟨few, rfl⟩ }
      · intro empty
        exact nonempty (by rw [empty]; rfl)
      · rw [delivered]
        simp [pending]
      · rw [stop]
        simp [ending]
      · rw [← bytes]
        exact gone
      · intro
        exact .inl rfl

theorem step_readNext (positive : 0 < chunker.size) (running : chunker.done = false) :
    chunker.Step chunker.readNext := by
  rcases Nat.lt_or_ge chunker.stream.content.length chunker.size with few | enough
  · exact step_of_last running few
  · exact step_of_full positive running enough

theorem step_next (positive : 0 < chunker.size) : chunker.Step chunker.next := by
  rw [next]
  split
  case isTrue done => exact .ended (by simp [pending, done]) (by simp [ending, done])
  case isFalse running =>
    have running : chunker.done = false := by simpa using running
    split
    case h_1 room => exact step_readNext positive running
    case h_2 crowded => exact .crowded (by simp) (by simp) running (by simp [crowded])
    case h_3 crowded => exact .crowded (by simp) (by simp) running (by simp [crowded])

/-- A chunker with room for all its chunks has room for the next one. -/
theorem makeRoom_of_roomy (running : chunker.done = false)
    (context : chunker.context.length ≤ chunker.overlap) (roomy : chunker.Roomy) :
    chunker.makeRoom = .ok () := by
  rcases roomy with done | ⟨kept, filled⟩
  · rw [running] at done
    cases done
  · have filled' : hasRoom .filled (chunker.context.length + chunker.size) 1 = true := by
      rw [hasRoom_bytes] at filled ⊢
      omega
    rw [makeRoom, makeRoom_eq_ok_iff.2 kept, makeRoom_eq_ok_iff.2 filled']
    rfl

end Chunker

end GramCensus
