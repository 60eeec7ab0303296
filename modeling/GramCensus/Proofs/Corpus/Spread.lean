import Mathlib.Data.List.Infix
import GramCensus.Proofs.StableSort.Ties
import GramCensus.Proofs.Stream.Delivery
import GramCensus.Corpus

/-!
# The spread of an n-gram

The spread of an n-gram is the number of files that deliver it. It does not depend on the order of
the files, and where no read fails it does not depend on how they are cut into chunks
(`spread_of_perm`). Longer n-grams are not spread further than what lies in them (`spread_le`).
-/

namespace GramCensus

/-- The number of files that deliver an n-gram, where they are read in chunks of `size` bytes. -/
def spread (size : Nat) (files : List OpenedFile) (gram : Bytes) : Nat :=
  files.countP fun file => decide (gram <:+: file.stream.delivered size)

/-- An n-gram is not spread further than what lies in it. -/
theorem spread_le {size : Nat} {files : List OpenedFile} {gram inner : Bytes}
    (inside : inner <:+: gram) : spread size files gram ≤ spread size files inner :=
  List.countP_mono_left fun _ _ found =>
    decide_eq_true (inside.trans (of_decide_eq_true found))

theorem spread_le_length (size : Nat) (files : List OpenedFile) (gram : Bytes) :
    spread size files gram ≤ files.length :=
  List.countP_le_length

/-- A stream without a failed read delivers all its content, in chunks of any size. -/
theorem Stream.delivered_of_ended {stream : Stream} (ended : stream.ending = .ended) (size : Nat) :
    stream.delivered size = stream.content := by
  rw [delivered, ended]

/-- The spread depends on the streams of the files only, in any order. -/
theorem spread_of_perm {size other : Nat} {files others : List OpenedFile}
    (same : (files.map (·.stream)).Perm (others.map (·.stream)))
    (chunks : size = other ∨ ∀ file ∈ files, file.stream.ending = .ended) (gram : Bytes) :
    spread size files gram = spread other others gram := by
  -- The numbers of files are of no account, so both counts are over streams.
  have streams : ∀ (size : Nat) (files : List OpenedFile), spread size files gram =
      (files.map (·.stream)).countP fun stream => decide (gram <:+: stream.delivered size) := by
    intro size files
    rw [List.countP_map]
    rfl
  calc
    spread size files gram
        = (files.map (·.stream)).countP fun stream => decide (gram <:+: stream.delivered size) :=
          streams size files
    _ = (files.map (·.stream)).countP fun stream => decide (gram <:+: stream.delivered other) := by
          apply List.countP_congr
          intro stream member
          rcases List.mem_map.1 member with ⟨file, listed, rfl⟩
          rcases chunks with rfl | ended
          · exact Iff.rfl
          · have whole := Stream.delivered_of_ended (ended file listed)
            rw [whole, whole]
    _ = (others.map (·.stream)).countP fun stream => decide (gram <:+: stream.delivered other) :=
          same.countP_eq _
    _ = spread other others gram := (streams other others).symm

namespace Corpus

variable {view : View} {corpus : Corpus}

def behind (view : View) : (taken : Nat) → Corpus → Corpus
  | 0, corpus => corpus
  | taken + 1, corpus => behind view taken (corpus.next view).2

theorem reset_next (view : View) (corpus : Corpus) : (corpus.next view).2.reset = corpus.reset := by
  cases corpus with
  | listed streams id => rfl
  | walked roots depth pending id =>
    rw [next]
    split <;> rfl

/-- All files from the first on are the same, whatever was taken. -/
theorem files_behind (view other : View) (taken : Nat) (corpus : Corpus) :
    (corpus.behind other taken).files view = corpus.files view := by
  induction taken generalizing corpus with
  | zero => rfl
  | succ taken ih => rw [behind, ih, files, reset_next, files]

/-- Files are numbered in the order in which they are handed out. -/
theorem pairwise_id_files (view : View) (corpus : Corpus) :
    (corpus.files view).Pairwise fun a b => a.id < b.id := by
  cases corpus with
  | listed streams id => exact List.pairwise_map.2 (pairwise_zipIdx_lt _ _)
  | walked roots depth pending id => exact List.pairwise_map.2 (pairwise_zipIdx_lt _ _)

end Corpus

end GramCensus
