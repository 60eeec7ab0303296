import GramCensus.Proofs.Corpus.Spread
import GramCensus.Proofs.Pass.Single
import GramCensus.Proofs.Pass.Totals
import GramCensus.Census

/-!
# The totals of a counting pass

What a counting pass reports about itself is exact: files, delivered bytes, chunks, windows in the
space, and mark sets that were counted are those of the files of the corpus, and a single worker
never waits and flushes as seldom as it can (`Census.countOnly_totals`).
-/

namespace GramCensus

namespace Worker

/-- The bytes that the next chunk of a reader repeats are part of that chunk. -/
def Overlaps [Memory] (worker : Worker) : Prop :=
  ∀ fileId chunker carried bytes after, worker.reader = .reading fileId chunker carried →
    chunker.next = (some (.bytes bytes), after) → carried ≤ bytes.length

theorem Sound.overlaps [Memory] {plan : PassPlan} {worker : Worker} (chunks : 0 < plan.chunkSize)
    (sound : worker.Sound plan) : worker.Overlaps := by
  intro fileId chunker carried bytes after reading yields
  have follows := sound.follows chunker (by rw [chunker?, reading])
  have step := @Chunker.step_next chunker _ (follows.size_eq ▸ chunks)
  rw [yields] at step
  rw [sound.carries _ _ _ reading]
  cases step with
  | bytes advances =>
    rw [List.length_append]
    exact Nat.le_add_right _ _
  | crowded noBytes => exact absurd rfl (noBytes bytes)

end Worker

namespace Census

variable {settings : Settings} {corpus : Corpus} {space : Space} {tree : FileTree}

theorem check_of_countOnly [Memory] {schedule : List Turn} {tally : Tally} {totals : PassTotals}
    (counted : countOnly settings corpus schedule space tree = .ok (tally, totals)) :
    settings.check = .ok () ∧
      Pass.count settings space (corpus.files tree.view) schedule = .ok (tally, totals) := by
  rw [countOnly] at counted
  cases valid : settings.check with
  | error failure =>
    rw [valid] at counted
    cases counted
  | ok =>
    rw [valid] at counted
    exact ⟨rfl, counted⟩

/-- A counting pass that succeeds reports the number of its files, the bytes that they delivered,
each once, the chunks that these bytes make, the windows of the bytes that are in the space, and the
files that have such a window. A reader never counts less than nothing for a chunk, at whatever
point of the pass. A single worker never waits and flushes no more often than so many files need. -/
theorem countOnly_totals [Memory] (made : space.Made) {schedule : List Turn} {tally : Tally}
    {totals : PassTotals}
    (counted : countOnly settings corpus schedule space tree = .ok (tally, totals)) :
    let files := corpus.files tree.view
    let delivered := fun file : OpenedFile => file.stream.delivered settings.chunkSize
    totals.files = files.length ∧
      totals.bytes = (files.map fun file => (delivered file).length).sum ∧
      totals.chunks = (files.map fun file =>
        (delivered file).length ⌈/⌉ settings.chunkSize).sum ∧
      totals.marked = (files.map fun file => space.hits (delivered file)).sum ∧
      totals.flushedSets = (files.countP fun file => 0 < space.hits (delivered file)) ∧
      (∀ state, Pass.start settings space files = .ok state → ∀ turns : List Turn,
        ∀ worker ∈ (turns.foldl (·.turn (settings.plan space)) state).workers,
          worker.Overlaps) ∧
      (settings.workers = 1 →
        totals.waits = 0 ∧ totals.flushes = totals.flushedSets ⌈/⌉ settings.groupSize) := by
  rcases check_of_countOnly counted with ⟨valid, passed⟩
  have ascending := Corpus.pairwise_id_files tree.view corpus
  have fits := Pass.fits_plan valid space
  rcases Pass.totals_of_count valid made ascending passed with
    ⟨files_eq, bytes_eq, chunks_eq, marked_eq, flushedSets_eq⟩
  refine ⟨files_eq, bytes_eq, chunks_eq, marked_eq, flushedSets_eq, ?_, ?_⟩
  · intro state started turns worker member
    rw [Pass.start_eq_ok started] at member
    have sound := PassState.foldl_turn_induction (PassState.sound_turn made fits) turns
      (Pass.sound_opening valid ascending)
    exact (sound.workers worker member).overlaps fits.chunks
  · intro alone
    exact Pass.flushes_of_count valid made ascending alone passed

-- What follows runs where all memory can be had.
attribute [local instance] Memory.whole

/-- Four files, of which one is too short for an n-gram and one fails behind its first chunk, in
chunks of three bytes and groups of two. -/
theorem countOnly_totals_of_short_chunks :
    ∃ tally totals,
      countOnly { Settings.usual with chunkSize := 3, groupSize := 2 }
          (.ofStreams [[.data [97, 98, 97, 98], .interrupted, .data [99]], [.data [97, 98]],
            [.data [98, 97, 98, 99], .failure "gone"], [.data [97, 98, 99]]])
          [⟨0, .counter⟩] .trigrams ⟨.folder [], []⟩ = .ok (tally, totals) ∧
        totals.files = 4 ∧ totals.bytes = 13 ∧ totals.chunks = 5 ∧ totals.marked = 5 ∧
          totals.flushedSets = 3 ∧ totals.waits = 0 ∧ totals.flushes = 2 := by
  have succeeds : (countOnly { Settings.usual with chunkSize := 3, groupSize := 2 }
      (.ofStreams [[.data [97, 98, 97, 98], .interrupted, .data [99]], [.data [97, 98]],
        [.data [98, 97, 98, 99], .failure "gone"], [.data [97, 98, 99]]])
      [⟨0, .counter⟩] .trigrams ⟨.folder [], []⟩).toOption.isSome = true := by
    decide +kernel
  cases counted : countOnly { Settings.usual with chunkSize := 3, groupSize := 2 }
      (.ofStreams [[.data [97, 98, 97, 98], .interrupted, .data [99]], [.data [97, 98]],
        [.data [98, 97, 98, 99], .failure "gone"], [.data [97, 98, 99]]])
      [⟨0, .counter⟩] .trigrams ⟨.folder [], []⟩ with
  | error failure =>
    rw [counted] at succeeds
    cases succeeds
  | ok both =>
    rcases both with ⟨tally, totals⟩
    rcases countOnly_totals .trigrams counted with
      ⟨files, bytes, chunks, marked, sets, -, alone⟩
    rcases alone rfl with ⟨waits, flushes⟩
    refine ⟨tally, totals, rfl, files, bytes, chunks, ?_, ?_, waits, ?_⟩
    · rw [marked]
      decide +kernel
    · rw [sets]
      decide +kernel
    · rw [flushes, sets]
      decide +kernel

end Census

end GramCensus
