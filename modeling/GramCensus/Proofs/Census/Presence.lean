import GramCensus.Proofs.Corpus.Spread
import GramCensus.Proofs.Pass.Breakdown
import GramCensus.Census

/-!
# Counting passes count files

A counting pass finds for every n-gram of its space in how many files it occurs, and finds nothing
else (`Tally.Records`). It does so under every schedule, for every division of the work, from
whatever position of the corpus it is started, and it always comes to that result, unless memory
runs out or the reading of a file breaks down (`Census.countOnly_records_spread`).
-/

namespace GramCensus

/-- A tally says of every n-gram of a space in how many files it occurs, and nothing else. -/
structure Tally.Records (tally : Tally) (space : Space) (size : Nat) (files : List OpenedFile) :
    Prop where
  space_eq : tally.space = space
  counted : ∀ gram slot, gram.length = space.gramLength → space.slot? gram = .ok (some slot) →
    (tally.count slot).toNat = spread size files gram
  silent : ∀ slot, (∀ gram, gram.length = space.gramLength →
    space.slot? gram ≠ .ok (some slot)) → tally.count slot = 0

namespace Pass

variable {settings : Settings} {space : Space} {files : List OpenedFile}

/-- A file shows the slot of an n-gram exactly if it delivers the n-gram. -/
theorem countP_fileHas (made : space.Made) {plan : PassPlan} {gram : Bytes} {slot : Nat}
    (width : gram.length = space.gramLength) (numbered : space.slot? gram = .ok (some slot)) :
    files.countP (Worker.fileHas plan space (.slot slot)) = spread plan.chunkSize files gram := by
  apply List.countP_congr
  intro file member
  rw [Worker.fileHas, Sign.shownBy, made.shows_iff width numbered, decide_eq_true_iff]

/-- A pass that succeeds records the spread of every n-gram. -/
theorem records_of_count [Memory] (valid : settings.check = .ok ()) (made : space.Made)
    (few : files.length < 2 ^ 32) (ascending : files.Pairwise fun a b => a.id < b.id)
    {schedule : List Turn} {tally : Tally} {totals : PassTotals}
    (counted : count settings space files schedule = .ok (tally, totals)) :
    tally.Records space settings.chunkSize files := by
  rcases count_eq_ok valid made few ascending counted with ⟨space_eq, counts⟩
  refine ⟨space_eq, ?_, ?_⟩
  · intro gram slot width numbered
    rw [counts, countP_fileHas made width numbered]
    rfl
  · intro slot none
    apply UInt32.toNat_inj.1
    rw [counts]
    apply List.countP_eq_zero.2
    intro file member shown
    rcases Space.shows_eq_true_iff.1 shown with ⟨gram, window, numbered⟩
    exact none gram (Bytes.length_of_mem_windows window) numbered

end Pass

/-- Two tallies that record the same spreads are the same. -/
theorem Tally.Records.count_eq {first second : Tally} {space : Space} {size other : Nat}
    {files others : List OpenedFile} (recorded : first.Records space size files)
    (again : second.Records space other others)
    (same : ∀ gram, spread size files gram = spread other others gram) (slot : Nat) :
    first.count slot = second.count slot := by
  by_cases numbered : ∃ gram, gram.length = space.gramLength ∧ space.slot? gram = .ok (some slot)
  · rcases numbered with ⟨gram, width, numbered⟩
    apply UInt32.toNat_inj.1
    calc
      (first.count slot).toNat = spread size files gram :=
        recorded.counted gram slot width numbered
      _ = spread other others gram := same gram
      _ = (second.count slot).toNat := (again.counted gram slot width numbered).symm
  · have none : ∀ gram, gram.length = space.gramLength → space.slot? gram ≠ .ok (some slot) :=
      fun gram width found => numbered ⟨gram, width, found⟩
    rw [recorded.silent slot none, again.silent slot none]

namespace Census

variable {settings : Settings} {corpus : Corpus} {space : Space} {tree : FileTree}

theorem countOnly_of_check [Memory] (valid : settings.check = .ok ()) (schedule : List Turn) :
    countOnly settings corpus schedule space tree =
      Pass.count settings space (corpus.files tree.view) schedule := by
  rw [countOnly, valid]
  rfl

/-- A counting pass records the spread of every n-gram of its space, wherever the corpus stands when
it is called and whatever schedule its workers follow. It succeeds wherever there is memory and no
file breaks reading down. So its counters depend neither on the order of the files nor, if no read
fails, on how the work is divided. -/
theorem countOnly_records_spread [Memory] (valid : settings.check = .ok ()) (made : space.Made)
    (few : (corpus.files tree.view).length < 2 ^ 32) :
    (∀ view taken schedule tally totals,
        countOnly settings (corpus.behind view taken) schedule space tree = .ok (tally, totals) →
          tally.Records space settings.chunkSize (corpus.files tree.view)) ∧
      (Pass.HasMemory settings space → Pass.Readable settings space (corpus.files tree.view) →
        (∀ file ∈ corpus.files tree.view, ¬ file.Breaks) →
        ∀ view taken schedule, ∃ tally totals,
          countOnly settings (corpus.behind view taken) schedule space tree = .ok (tally, totals)) ∧
      ∀ (changed : Settings) (other : Corpus) (elsewhere : FileTree), changed.check = .ok () →
        ((corpus.files tree.view).map (·.stream)).Perm
          ((other.files elsewhere.view).map (·.stream)) →
        (settings.chunkSize = changed.chunkSize ∨
          ∀ file ∈ corpus.files tree.view, file.stream.ending = .ended) →
        ∀ schedule reordered first second totals totals',
          countOnly settings corpus schedule space tree = .ok (first, totals) →
          countOnly changed other reordered space elsewhere = .ok (second, totals') →
          ∀ slot, first.count slot = second.count slot := by
  have records : ∀ schedule tally totals,
      Pass.count settings space (corpus.files tree.view) schedule = .ok (tally, totals) →
        tally.Records space settings.chunkSize (corpus.files tree.view) := by
    intro schedule tally totals counted
    exact Pass.records_of_count valid made few (Corpus.pairwise_id_files _ _) counted
  -- Setting the corpus back undoes what was taken before.
  refine ⟨?_, ?_, ?_⟩
  · intro view taken schedule tally totals counted
    rw [countOnly_of_check valid, Corpus.files_behind] at counted
    exact records schedule tally totals counted
  · intro memory readable intact view taken schedule
    rw [countOnly_of_check valid, Corpus.files_behind]
    exact Pass.count_of_intact valid made (Corpus.pairwise_id_files _ _) memory readable intact
      schedule
  · intro changed other elsewhere sensible same chunks schedule reordered first second totals
      totals' counted recounted
    rw [countOnly_of_check valid] at counted
    rw [countOnly_of_check sensible] at recounted
    have fewAgain : (other.files elsewhere.view).length < 2 ^ 32 := by
      have length := same.length_eq
      rw [List.length_map, List.length_map] at length
      rwa [← length]
    exact (records schedule first totals counted).count_eq
      (Pass.records_of_count sensible made fewAgain (Corpus.pairwise_id_files _ _) recounted)
      (spread_of_perm same chunks)

-- What follows runs where all memory can be had.
attribute [local instance] Memory.whole

/-- In chunks of three bytes, a file that fails behind its fourth byte counts for its first three. -/
theorem countOnly_records_spread_of_failing_read :
    ∃ tally totals,
      countOnly { Settings.usual with chunkSize := 3 }
          ((Corpus.ofStreams [[.data [97, 98], .interrupted, .data [99, 97]],
            [.data [98, 97, 98, 99], .failure "gone"]]).behind (fun _ => .nothing) 1)
          [⟨0, .reader⟩, ⟨0, .counter⟩] .trigrams ⟨.folder [], []⟩ = .ok (tally, totals) ∧
        (tally.count 0x616263).toNat = 1 ∧ (tally.count 0x626162).toNat = 1 := by
  obtain ⟨records, succeeds, -⟩ := @countOnly_records_spread { Settings.usual with chunkSize := 3 }
    (Corpus.ofStreams [[.data [97, 98], .interrupted, .data [99, 97]],
      [.data [98, 97, 98, 99], .failure "gone"]]) .trigrams ⟨.folder [], []⟩ _ rfl .trigrams (by decide)
  obtain ⟨tally, totals, counted⟩ := succeeds
    ⟨by decide, by decide, by decide⟩
    (by unfold Pass.Readable OpenedFile.Roomy Chunker.Roomy; decide)
    (by unfold OpenedFile.Breaks; decide) (fun _ => .nothing) 1
    [⟨0, .reader⟩, ⟨0, .counter⟩]
  have recorded := records _ _ _ _ _ counted
  exact ⟨tally, totals, counted, recorded.counted [97, 98, 99] _ rfl rfl,
    recorded.counted [98, 97, 98] _ rfl rfl⟩

end Census

end GramCensus
