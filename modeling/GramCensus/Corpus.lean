import GramCensus.FileTree.Walk
import GramCensus.Stream
import GramCensus.Text.Quoted

/-!
# Corpora

A corpus hands out files one after the other, each with a number that tells it from all others of
its pass, and can be set back to its first file. It holds its files in memory or finds them by a
walk below some roots.
-/

namespace GramCensus

/-- A file that was handed out. -/
structure OpenedFile where
  id : Nat
  name : List Char
  stream : Stream
  deriving DecidableEq, Repr

/-- The number and the name in one line. -/
def OpenedFile.describe (file : OpenedFile) : String :=
  "SourceFile \x7b id: " ++ toString file.id ++ ", name: " ++ String.ofList (quoted file.name)
    ++ " \x7d"

/-- A set of files with a cursor. -/
inductive Corpus where
  /-- Files in memory, and the number of the next one. -/
  | listed (streams : List Stream) (next : Nat)
  /-- Files found by a walk below roots, at most `depth` folders deep: the rest of the walk and
  the number of the next file. -/
  | walked (roots : List Path) (depth : Nat) (pending : List Pending) (next : Nat)
  deriving DecidableEq, Repr

namespace Corpus

/-- Files in memory, each read at once. -/
def ofFiles (files : List Bytes) : Corpus :=
  .listed (files.map Stream.ofBytes) 0

/-- Files in memory, read as their streams say. -/
def ofStreams (streams : List Stream) : Corpus :=
  .listed streams 0

/-- The depth that walks go to unless another one is asked for. -/
def usualDepth : Nat := 10

/-- The files below some roots. -/
def ofRoots (roots : List Path) (depth : Nat) : Corpus :=
  .walked roots depth (Walk.start roots depth) 0

/-- The name of a file in memory. -/
def memoryName (id : Nat) : List Char :=
  "<memory #".toList ++ Nat.toDigits 10 id ++ ['>']

/-- The next file. Behind the last one there is none, however often it is asked for. -/
def next (view : View) : Corpus → Option OpenedFile × Corpus
  | .listed streams id =>
    (streams[id]?.map fun stream => ⟨id, memoryName id, stream⟩, .listed streams (id + 1))
  | .walked roots depth pending id =>
    match Walk.nextFile view pending with
    | none => (none, .walked roots depth [] id)
    | some (found, behind) =>
      (some ⟨id, found.path, .ofBytes found.data⟩, .walked roots depth behind (id + 1))

/-- The corpus at its first file again. -/
def reset : Corpus → Corpus
  | .listed streams _ => .listed streams 0
  | .walked roots depth _ _ => .walked roots depth (Walk.start roots depth) 0

/-- All files that are still to come, as long as the view stays as it is. -/
def rest (view : View) : Corpus → List OpenedFile
  | .listed streams id =>
    ((streams.drop id).zipIdx id).map fun (stream, i) => ⟨i, memoryName i, stream⟩
  | .walked _ _ pending id =>
    ((Walk.files view pending).zipIdx id).map fun (found, i) =>
      ⟨i, found.path, .ofBytes found.data⟩

/-- All files from the first on. -/
def files (view : View) (corpus : Corpus) : List OpenedFile :=
  corpus.reset.rest view

/-- The number of files from the first on. They are counted in a walk of their own. -/
def count (view : View) : Corpus → Nat
  | .listed streams _ => streams.length
  | .walked roots depth _ _ => (Walk.found view (Walk.start roots depth)).length

end Corpus

end GramCensus
