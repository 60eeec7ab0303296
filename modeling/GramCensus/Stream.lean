import GramCensus.Room
import GramCensus.Sums

/-!
# Streams and their chunks

The bytes of a file arrive in reads of any size, between which a read may be interrupted, fail or
break down. `Chunker.next` gathers them into chunks of a fixed number of new bytes, each behind the
last bytes of what came before it, so that with an overlap of `n - 1` every n-gram lies in exactly
one chunk behind its overlap.
-/

namespace GramCensus

/-- What a read of a stream brings. -/
inductive Read where
  /-- Bytes, of which one read takes at most as many as it has room for. No bytes at all end the
  stream. -/
  | data (bytes : Bytes)
  /-- Nothing, but the read may be tried again. -/
  | interrupted
  /-- A failure in the words of the device. -/
  | failure (text : String)
  /-- The reader breaks down. -/
  | fault
  deriving DecidableEq, Repr

/-- The reads that are still to come. Behind the last one the stream has ended. -/
abbrev Stream := List Read

namespace Stream

/-! ## Filling a buffer -/

/-- Why a buffer is not filled any further. -/
inductive Stop where
  | full
  | ended
  | failed (text : String)
  | broken
  deriving DecidableEq, Repr

/-- The bytes read into a buffer, why reading stopped, and what is left of the stream. -/
structure Gathered where
  bytes : Bytes
  stop : Stop
  rest : Stream
  deriving DecidableEq, Repr

/-- Reads until the room is used up, or until a read brings no bytes. -/
def gather : (room : Nat) → Stream → Gathered
  | 0, stream => ⟨[], .full, stream⟩
  | _ + 1, [] => ⟨[], .ended, []⟩
  | room + 1, .interrupted :: rest => gather (room + 1) rest
  | _ + 1, .failure text :: rest => ⟨[], .failed text, rest⟩
  | _ + 1, .fault :: rest => ⟨[], .broken, rest⟩
  | room + 1, .data bytes :: rest =>
    if bytes.isEmpty then ⟨[], .ended, rest⟩
    else match bytes.drop (room + 1) with
      | [] =>
        let gathered := gather (room + 1 - bytes.length) rest
        { gathered with bytes := bytes ++ gathered.bytes }
      | left => ⟨bytes.take (room + 1), .full, .data left :: rest⟩

/-- A stream that delivers its bytes in one read. -/
def ofBytes (bytes : Bytes) : Stream :=
  [.data bytes]

/-- The number of bytes of a read. -/
def readSize : Read → Nat
  | .data bytes => bytes.length
  | _ => 0

/-- The number of bytes that are still to come, whether they can be reached or not. -/
def byteCount (stream : Stream) : Nat :=
  sumOf (stream.map readSize)

end Stream

/-! ## Chunks -/

/-- Cuts a stream into chunks of `size` new bytes behind `context`, the last `overlap` bytes of the
chunk before. -/
structure Chunker where
  size : Nat
  overlap : Nat
  context : Bytes
  stream : Stream
  done : Bool
  deriving DecidableEq, Repr

/-- What a chunker yields. -/
inductive Chunk where
  | bytes (bytes : Bytes)
  /-- The stream failed; what was read since the last chunk is lost. -/
  | failed (text : String)
  /-- The reader broke down, or the chunk was too large for one piece of memory. -/
  | broken
  /-- No memory was left for the chunk. -/
  | exhausted
  deriving DecidableEq, Repr

namespace Chunker

/-- A chunker at the start of a stream. A chunk has at least one new byte. -/
def start (stream : Stream) (size overlap : Nat) : Chunker :=
  { size := max size 1, overlap, context := [], stream, done := false }

variable [Memory]

/-- Refuses a chunker that has no room for the bytes that it keeps between chunks, or none for the
next chunk, which is filled with zeros before it is read. -/
def makeRoom (chunker : Chunker) : Except Failure Unit := do
  GramCensus.makeRoom .untouched chunker.overlap 1
  GramCensus.makeRoom .filled (chunker.context.length + chunker.size) 1

/-- The next chunk, where there is room for it. -/
def readNext (chunker : Chunker) : Option Chunk × Chunker :=
  let gathered := Stream.gather chunker.size chunker.stream
  match gathered.stop with
  | .failed text => (some (.failed text), { chunker with stream := gathered.rest, done := true })
  | .broken => (some .broken, { chunker with stream := gathered.rest, done := true })
  | _ =>
    if gathered.bytes.isEmpty then (none, { chunker with stream := gathered.rest, done := true })
    else
      let chunk := chunker.context ++ gathered.bytes
      (some (.bytes chunk), { chunker with
        context := chunk.drop (chunk.length - chunker.overlap)
        stream := gathered.rest
        done := gathered.bytes.length < chunker.size })

/-- The next chunk. The last one may have fewer new bytes than `size`; behind it, and behind a
failure, there is none and the stream is not read any more. A chunk without room breaks down before
anything is read. -/
def next (chunker : Chunker) : Option Chunk × Chunker :=
  if chunker.done then (none, chunker)
  else match chunker.makeRoom with
    | .ok () => chunker.readNext
    | .error .exhausted => (some .exhausted, { chunker with done := true })
    | .error _ => (some .broken, { chunker with done := true })

/-- At most `rounds` chunks, up to the end of the stream, and the chunker behind them. -/
def nextChunks : (rounds : Nat) → Chunker → List Chunk × Chunker
  | 0, chunker => ([], chunker)
  | rounds + 1, chunker =>
    match chunker.next with
    | (none, after) => ([], after)
    | (some chunk, after) =>
      let (chunks, final) := nextChunks rounds after
      (chunk :: chunks, final)

/-- A number of chunks that no stream exceeds: one for each byte that is still to come, one for a
failure, and one more. -/
def enough (chunker : Chunker) : Nat :=
  Stream.byteCount chunker.stream + 2

/-- All chunks that are still to come, and the chunker behind them. -/
def chunks (chunker : Chunker) : List Chunk × Chunker :=
  nextChunks chunker.enough chunker

end Chunker

end GramCensus
