import GramCensus.CommandLine.Basic

/-!
# The program

Copies what a command line needs of the file system into a file tree, runs the command line there,
and writes the results back.
-/

namespace GramCensus

open CommandLine

/-! ## From the file system into a tree -/

/-- The place that a path really leads to, if anything stands there. -/
def realPlace? (path : String) : IO (Option String) := do
  try
    let real ← IO.FS.realPath path
    return if ← real.pathExists then some real.toString else none
  catch _ => return none

/-- What stands at a path, at most `depth` folders deep, with links replaced by what they lead
to. -/
def snapshot : (depth : Nat) → (path : String) → IO (Option FileNode)
  | depth, path => do
    let some place ← realPlace? path | return none
    let real ← IO.FS.realPath place
    match (← real.metadata).type with
    | .file =>
      try
        let data ← IO.FS.readBinFile real
        return some (.file data.toList)
      catch _ => return none
    | .dir =>
      match depth with
      | 0 => return some (.folder [])
      | depth + 1 =>
        let mut entries : List (Name × FileNode) := []
        for entry in ← real.readDir do
          if let some node ← snapshot depth entry.path.toString then
            entries := (entry.fileName.toList, node) :: entries
        return some (.folder entries)
    | _ => return some (.device .sink)

/-- The names along a path from the root, `.` and `..` taken away as they are written. -/
def plainNames (here : List Name) (path : Path) : List Name :=
  (FileTree.parts path).foldl
    (fun names part =>
      if part = [] ∨ part = ['.'] then names
      else if part = ['.', '.'] then names.dropLast
      else names ++ [part])
    (FileTree.startOf here path)

/-- Puts a node where a path really leads, and a link where the path seems to lead if that is
another place. What is in the tree already stays. -/
def mount (tree : FileTree) (path : Path) (node : FileNode) : IO FileTree := do
  let some place ← realPlace? (String.ofList path) | return tree
  let real := place.toList
  let names := plainNames tree.here real
  let seeming := plainNames tree.here path
  let root := if (tree.root.node? names).isSome then tree.root else tree.root.put names node
  if seeming = names ∨ (root.node? seeming).isSome then return { tree with root }
  return { tree with root := root.put seeming (.link real) }

/-- Mounts what stands at a path, if anything does. -/
def mountPath (tree : FileTree) (depth : Nat) (path : Path) : IO FileTree := do
  match ← snapshot depth (String.ofList path) with
  | none => return tree
  | some node => mount tree path node

/-- The part of the file system that a run can see: the directory, and the folder of the
results. -/
def treeFor (arguments : Arguments) : IO FileTree := do
  let here := plainNames [] (← IO.currentDir).toString.toList
  let tree ← mountPath ⟨.folder [], here⟩ Corpus.usualDepth arguments.directory
  let tree ← mount tree ['.'] (.folder [])
  match arguments.settings.outputStem with
  | none => return tree
  | some stem =>
    let folder := FileTree.parent stem
    let tree ← if folder.isEmpty then pure tree else mountPath tree 0 folder
    mountPath tree 0 (resultPath stem arguments.settings.gramLength)

/-! ## From the tree into the file system -/

/-- Writes the result files of a run. -/
def writeBack (arguments : Arguments) (tree : FileTree) : IO Unit := do
  for path in results arguments.settings tree do
    if let .ok data := tree.read path then
      IO.FS.writeBinFile (String.ofList path) ⟨data.toArray⟩

/-! ## The program -/

/-- The exit code of a program that the system has ended. -/
def endedCode : UInt32 := 134

/-- The arguments and options in one line. -/
def usage : String :=
  "Usage: gramcensus [OPTIONS] <DIRECTORY> <N> <K> <OVERAGE> <N_THREADS> <VERBOSITY> "
    ++ "<SAVE_INTERMEDIATE> <OUTPUT_FILE_PREFIX>\nOptions: --group-size <N>, --chunk-size <N>"

/-- Runs the command line that was given. -/
def runCommand (words : List (List Char)) : IO UInt32 := do
  match Arguments.read words with
  | .about => IO.println usage; return 0
  | .misuse => IO.eprintln ("error: invalid command line\n\n" ++ usage); return 2
  | .run arguments =>
    let outcome := execute words (fun _ => []) (← treeFor arguments)
    writeBack arguments outcome.tree
    IO.eprint (String.ofList outcome.report)
    return (outcome.exitCode.map Nat.toUInt32).getD endedCode

end GramCensus

/-- Runs the command line. -/
def main (arguments : List String) : IO UInt32 :=
  GramCensus.runCommand (arguments.map (·.toList))
