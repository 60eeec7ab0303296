import GramCensus.Pass.Basic
import GramCensus.Tally.Selection
import GramCensus.GramTable.Report

/-!
# Censuses

A census finds the n-grams that occur in the most files, in passes of growing length. The first pass
counts all n-grams of three bytes. Every later one counts the extensions by one byte of what the
pass before it kept, and so on up to the length that was asked for. The results of a pass may be
written into the file tree, where later passes see them if they walk there.
-/

namespace GramCensus

/-- The results of a pass. -/
structure PassResult where
  /-- The length of the n-grams. -/
  length : Nat
  /-- The n-grams that were kept, in the order of their slots. -/
  selected : GramTable
  totals : PassTotals
  /-- The file that the results were written to. -/
  output : Option Path

/-- Writes the report of the `limit` most frequent n-grams, and returns its path. -/
def writeResults (tree : FileTree) (stem : Path) (table : GramTable) (limit : Nat) :
    Except Failure (FileTree × Path) :=
  let path := resultPath stem table.width
  match tree.write path (asciiBytes (table.report limit)) with
  | .ok after => .ok (after, path)
  | .error cause => .error (.io cause)

namespace Census

/-- The turns of the workers in each pass, by the length of its n-grams. -/
abbrev Schedules := Nat → List Turn

/-- Writes the results of a pass if they are asked for. -/
def record (settings : Settings) (length : Nat) (selected : GramTable) (totals : PassTotals)
    (tree : FileTree) : Except Failure (FileTree × PassResult) :=
  match settings.outputStem with
  | none => .ok (tree, ⟨length, selected, totals, none⟩)
  | some stem =>
    if settings.recordAll ∨ length = settings.gramLength then
      (writeResults tree stem selected settings.limit).map fun (after, path) =>
        (after, ⟨length, selected, totals, some path⟩)
    else .ok (tree, ⟨length, selected, totals, none⟩)

variable [Memory]

/-- One pass: counting, selecting and recording. -/
def pass (settings : Settings) (corpus : Corpus) (schedules : Schedules) (length : Nat)
    (space : Space) (tree : FileTree) : Except Failure (FileTree × PassResult) := do
  let (tally, totals) ← Pass.count settings space (corpus.files tree.view) (schedules length)
  let selected ← tally.top (settings.quota length)
  record settings length selected totals tree

/-- The pass over the extensions of what an earlier pass kept. -/
def extendingPass (settings : Settings) (corpus : Corpus) (schedules : Schedules) (length : Nat)
    (kept : GramTable) (tree : FileTree) : Except Failure (FileTree × PassResult) := do
  let trie ← (RankTrie.build kept).2
  pass settings corpus schedules length (.extensions trie) tree

/-- Goes on with the results of a pass, or ends with its failure and the file tree as it was. -/
def andThen (outcome : Except Failure (FileTree × PassResult)) (tree : FileTree)
    (next : FileTree → GramTable → FileTree × Except Failure (List PassResult)) :
    FileTree × Except Failure (List PassResult) :=
  match outcome with
  | .error failure => (tree, .error failure)
  | .ok (after, result) =>
    let (final, later) := next after result.selected
    (final, later.map (result :: ·))

/-- The next `remaining` passes, the first of them over n-grams of a length. -/
def laterPasses (settings : Settings) (corpus : Corpus) (schedules : Schedules) :
    (remaining length : Nat) → GramTable → FileTree → FileTree × Except Failure (List PassResult)
  | 0, _, _, tree => (tree, .ok [])
  | remaining + 1, length, kept, tree =>
    andThen (extendingPass settings corpus schedules length kept tree) tree fun after selected =>
      laterPasses settings corpus schedules remaining (length + 1) selected after

/-- The bytes that the results of a pass take, apart from the n-grams themselves. -/
def resultBytes : Nat := 208

/-- Refuses settings that make no sense, and more passes than there is room for their results. -/
def prepare (settings : Settings) : Except Failure Unit := do
  settings.check
  makeRoom .untouched (settings.gramLength - 2) resultBytes

/-- All passes from length three up to the length asked for, and the file tree as they leave it.
The results of passes before a failure stay written. -/
def run (settings : Settings) (corpus : Corpus) (schedules : Schedules) (tree : FileTree) :
    FileTree × Except Failure (List PassResult) :=
  match prepare settings with
  | .error failure => (tree, .error failure)
  | .ok () =>
    andThen (pass settings corpus schedules 3 .trigrams tree) tree fun after selected =>
      laterPasses settings corpus schedules (settings.gramLength - 3) 4 selected after

/-- One pass that counts the n-grams of a space, without a selection. -/
def countOnly (settings : Settings) (corpus : Corpus) (schedule : List Turn) (space : Space)
    (tree : FileTree) : Except Failure (Tally × PassTotals) := do
  settings.check
  Pass.count settings space (corpus.files tree.view) schedule

end Census

end GramCensus
