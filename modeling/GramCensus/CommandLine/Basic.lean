import GramCensus.Census
import GramCensus.CommandLine.Arguments

/-!
# The command line as a function

`CommandLine.execute` runs a command line on a file tree: it returns the exit code, if the program
gets as far as that, what is reported to the user, and the file tree with the results in it.
-/

namespace GramCensus

namespace CommandLine

/-- How a command ends. -/
structure Outcome where
  /-- None if the system has ended the program. -/
  exitCode : Option Nat
  /-- What is reported about a failure. -/
  report : List Char
  tree : FileTree

/-- The causes of a failure in order, each on a line; several ones are numbered. -/
def causeLines : List String → List (List Char)
  | [cause] => ["    ".toList ++ cause.toList]
  | causes => causes.zipIdx.map fun (cause, i) =>
    let digits := Nat.toDigits 10 i
    List.replicate (5 - digits.length) ' ' ++ digits ++ ": ".toList ++ cause.toList

/-- The report of a failure: what was tried, and then its causes. -/
def failureReport (attempt : List Char) (failure : Failure) : List Char :=
  "Error: ".toList ++ attempt ++ "\n\nCaused by:\n".toList
    ++ (causeLines failure.chain).flatMap fun line => line ++ ['\n']

/-- The result files for lengths from `length` on that are in a tree, at most `count` of them and up
to the first that is missing. -/
def resultsFrom (tree : FileTree) (stem : Path) : (count length : Nat) → List Path
  | 0, _ => []
  | count + 1, length =>
    let path := resultPath stem length
    if tree.isFile path then path :: resultsFrom tree stem count (length + 1) else []

/-- The result files that a run has left in a tree. -/
def results (settings : Settings) (tree : FileTree) : List Path :=
  match settings.outputStem with
  | none => []
  | some stem =>
    if settings.recordAll then resultsFrom tree stem (settings.gramLength - 2) 3
    else resultsFrom tree stem 1 settings.gramLength

/-- How a command ends that failed. A fault is not reported. -/
def Outcome.ofFailure (attempt : List Char) (failure : Failure) (tree : FileTree) : Outcome :=
  if failure.endsProgram then ⟨none, [], tree⟩
  else if failure.isFault then ⟨some 101, [], tree⟩
  else ⟨some 1, failureReport attempt failure, tree⟩

/-- Runs a command line in a file tree. -/
def execute [Memory] (arguments : List (List Char)) (schedules : Census.Schedules)
    (tree : FileTree) : Outcome :=
  match Arguments.read arguments with
  | .about => ⟨some 0, [], tree⟩
  | .misuse => ⟨some 2, [], tree⟩
  | .run asked =>
    match asked.settings.check with
    | .error failure => .ofFailure "invalid arguments".toList failure tree
    | .ok () =>
      let corpus := Corpus.ofRoots [asked.directory] Corpus.usualDepth
      match Census.run asked.settings corpus schedules tree with
      | (after, .ok _) => ⟨some 0, [], after⟩
      | (after, .error failure) =>
        .ofFailure ("failed to extract n-grams from ".toList ++ asked.directory) failure after

/-- Memory to run programs with, where no other is given: addresses reach to `2 ^ 47`, and much less
can be filled. Nothing is proved of it. -/
instance (priority := low) usualMemory : Memory where
  limit
    | .untouched => (1 <<< 47) - 1
    | .filled => (1 <<< 36) - 1
  limit_le_mostBytes use := by cases use <;> decide

end CommandLine

end GramCensus
