import GramCensus.Bytes
import GramCensus.Binary64

/-!
# What can go wrong

Every failure of the library is one value of `Failure`, named for its cause; `Failure.message` holds
the wording. Three failures are faults (`Failure.isFault`): a caller named a position past the end
of what it indexes, asked for more than memory can hold in one piece, or for more than is left of
it. They break down whatever comes upon them, and the last one the whole program
(`Failure.endsProgram`). All other failures are part of an operation's contract.
-/

namespace GramCensus

/-! ## Causes -/

/-- The phases of a slot of a pool of mark sets, in the order in which a slot runs through them. -/
inductive SlotPhase where
  /-- In nobody's hands, with no marks. -/
  | free
  /-- Lent, and being marked by its holder. -/
  | leased
  /-- Given back with marks that are not counted yet. -/
  | waiting
  /-- Held by a flush that adds its marks to the tally. -/
  | flushing
  /-- Out of use. -/
  | retired
  deriving DecidableEq, Repr, Inhabited

/-- The name of a phase in reports. -/
def SlotPhase.name : SlotPhase → String
  | .free => "Available"
  | .leased => "Filling"
  | .waiting => "NeedsFlush"
  | .flushing => "Flushing"
  | .retired => "Done"

/-- Why a file operation failed. -/
inductive IoCause where
  | notFound
  | alreadyThere
  | notADirectory
  | isADirectory
  | tooManyLinks
  | nameTooLong
  | nulInPath
  | sinkFull
  | deviceFull
  /-- A failure that the device or the stream describes itself. -/
  | reported (text : String)
  deriving DecidableEq, Repr, Inhabited

/-- The wording of the operating system, with its number where it has one. -/
def IoCause.text : IoCause → String
  | .notFound => "No such file or directory (os error 2)"
  | .alreadyThere => "File exists (os error 17)"
  | .notADirectory => "Not a directory (os error 20)"
  | .isADirectory => "Is a directory (os error 21)"
  | .tooManyLinks => "Too many levels of symbolic links (os error 40)"
  | .nameTooLong => "File name too long (os error 36)"
  | .nulInPath => "file name contained an unexpected NUL byte"
  | .sinkFull => "sink full"
  | .deviceFull => "No space left on device (os error 28)"
  | .reported text => text

/-- Why settings or arguments are refused. -/
inductive SettingsFault where
  | gramTooShort (length : Nat)
  | nothingRequested
  | overage (factor : Binary64)
  | noThreads
  | groupSize (size : Nat)
  | emptyChunks
  | emptyQueue
  | poolGroupSize (size : Nat)
  | emptyPool
  | emptyStems
  | trieTooLarge (nodes slots : Nat)
  deriving DecidableEq, Repr

/-- The largest number of mark sets that one flush merges. -/
def largestGroup : Nat := 16

/-- The wording of a refusal. -/
def SettingsFault.text : SettingsFault → String
  | .gramTooShort length => s!"n must be at least 3, got {length}"
  | .nothingRequested => "k must be at least 1"
  | .overage factor => s!"overage must be a number >= 1.0, got {factor.text}"
  | .noThreads => "at least one thread is required"
  | .groupSize size => s!"group size must be between 1 and {largestGroup}, got {size}"
  | .emptyChunks => "chunk size must be positive"
  | .emptyQueue => "queue depth must be positive"
  | .poolGroupSize size => s!"bitset group size must be between 1 and {largestGroup}, got {size}"
  | .emptyPool => "bitset pool needs at least one slot"
  | .emptyStems => "packed trie prefixes must be at least one byte"
  | .trieTooLarge nodes slots => s!"packed trie too large: {nodes} nodes, {slots} child slots"

/-- The two halves of a worker. -/
inductive WorkerHalf where
  | reader
  | counter
  deriving DecidableEq, Repr

/-- The name of a half in reports. -/
def WorkerHalf.name : WorkerHalf → String
  | .reader => "reader"
  | .counter => "counting"

/-- The arrays of a rank trie whose sizes are computed before it is laid out. -/
inductive TrieArray where
  | nodes
  | childSlots
  deriving DecidableEq, Repr

/-- The name of an array in reports. -/
def TrieArray.name : TrieArray → String
  | .nodes => "nodes"
  | .childSlots => "child slots"

/-! ## Failures -/

/-- The failures of the library, by cause. -/
inductive Failure where
  /-- A rank trie was asked for over no stems. -/
  | noStems
  /-- Indexing was to start past the end of every n-gram. -/
  | byteIndex (index length : Nat)
  /-- Two n-grams end in the same leaf. -/
  | duplicateLeaf (depth : Nat) (byte : UInt8)
  /-- A stem occurs twice. -/
  | duplicateStem (stem : Bytes)
  /-- A key leaves the tree: there is no child for its byte at this depth. -/
  | missingChild (depth : Nat) (byte : UInt8)
  /-- A buffer or an n-gram has the wrong number of bytes. -/
  | keyLength (expected actual : Nat)
  /-- An array of a rank trie did not come out at the size computed for it. -/
  | trieLayout (array : TrieArray) (expected actual : Nat)
  /-- No extension of a stem was ever seen. -/
  | unseenStem (stem : Bytes)
  /-- A slot of the pool was not free when the pool was closed. -/
  | flushProtocol (slot : Nat) (phase : SlotPhase)
  /-- Memory could not be had. -/
  | allocation (purpose : String) (bytes : Nat)
  /-- Half of a worker broke down. -/
  | workerPanic (half : WorkerHalf)
  | settings (fault : SettingsFault)
  | io (cause : IoCause)
  /-- A position past the end of what it indexes. -/
  | outOfRange
  /-- More items than can stand in one piece of memory. -/
  | noRoom
  /-- More memory than can be had, where nothing can be done without it. -/
  | exhausted
  deriving DecidableEq, Repr

/-- Two lowercase hexadecimal digits. -/
private def byteText (byte : UInt8) : String :=
  Bytes.hexText [byte]

/-- The wording of a failure. -/
def Failure.message : Failure → String
  | .noStems => "cannot build a packed trie from an empty prefix set"
  | .byteIndex index length =>
    s!"invalid byte index {index}: must be smaller than the n-gram length {length}"
  | .duplicateLeaf depth byte =>
    s!"byte 0x{byteText byte} encountered more than once while assembling trie level {depth}"
  | .duplicateStem stem => s!"prefix 0x{Bytes.hexText stem} occurs more than once"
  | .missingChild depth byte =>
    s!"prefix does not exist: no child for byte 0x{byteText byte} at depth {depth}"
  | .keyLength expected actual => s!"expected a key length of {expected} bytes, got {actual}"
  | .trieLayout array expected actual =>
    s!"trie layout mismatch: {array.name} expected {expected}, got {actual}"
  | .unseenStem stem => s!"all counts for prefix 0x{Bytes.hexText stem} are zero"
  | .flushProtocol slot phase =>
    s!"bitset flush protocol violated: bitset {slot} is {phase.name} during the final flush"
  | .allocation purpose bytes => s!"could not allocate {bytes} bytes for {purpose}"
  | .workerPanic half => s!"{half.name} thread panicked"
  | .settings fault => s!"invalid configuration: {fault.text}"
  | .io cause => s!"I/O error: {cause.text}"
  | .outOfRange => "index out of range"
  | .noRoom => "capacity overflow"
  | .exhausted => "memory exhausted"

/-- A failure that breaks down whatever comes upon it. -/
def Failure.isFault : Failure → Bool
  | .outOfRange | .noRoom | .exhausted => true
  | _ => false

/-- A failure that ends the program, whichever part of it comes upon it. -/
def Failure.endsProgram : Failure → Bool
  | .exhausted => true
  | _ => false

/-- The failure and then what caused it, outermost first. A failed file operation has the words of
the operating system as a cause of its own. -/
def Failure.chain : Failure → List String
  | .io cause => [(Failure.io cause).message, cause.text]
  | failure => [failure.message]

end GramCensus
