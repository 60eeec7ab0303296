import GramCensus.Proofs.Census.Course
import GramCensus.Proofs.FileTree.Results

/-!
# The output of a census

The results of a census are written by its passes one after the other. A census that succeeds has
left the file of every pass that is to be recorded, and a census that fails those of the passes
before the failure, so that there never is a file of the last pass then (`Census.run_writes`).
-/

namespace GramCensus

instance (settings : Settings) (length : Nat) : Decidable (settings.Records length) :=
  inferInstanceAs (Decidable (_ ∨ _))

namespace Census

variable {settings : Settings} {corpus : Corpus} {schedules : Schedules} {tree : FileTree}
  {stem : Path}

section

variable [Memory]

/-- What is written by the passes over n-grams of fewer than `i + 3` bytes, by the length of their
n-grams. -/
def texts (settings : Settings) (corpus : Corpus) (schedules : Schedules) (tree : FileTree)
    (i length : Nat) : Option Bytes :=
  if 3 ≤ length ∧ length < i + 3 ∧ settings.Records length then
    (passed settings corpus schedules tree (length - 3)).toOption.map fun done =>
      asciiBytes (done.2.selected.report settings.limit)
  else none

theorem texts_of_passed {i j : Nat} {after : FileTree} {result : PassResult}
    (done : passed settings corpus schedules tree j = .ok (after, result)) (earlier : j < i)
    (records : settings.Records (j + 3)) :
    texts settings corpus schedules tree i (j + 3) =
      some (asciiBytes (result.selected.report settings.limit)) := by
  rw [texts, if_pos ⟨by omega, by omega, records⟩, Nat.add_sub_cancel, done]
  rfl

theorem texts_of_not {i length : Nat}
    (outside : ¬ (3 ≤ length ∧ length < i + 3 ∧ settings.Records length)) :
    texts settings corpus schedules tree i length = none :=
  if_neg outside

/-- Every pass adds its own results to those of the passes before it. -/
theorem texts_succ (i : Nat) {after : FileTree} {result : PassResult}
    (done : passed settings corpus schedules tree i = .ok (after, result)) :
    texts settings corpus schedules tree (i + 1) = fun length =>
      if length = i + 3 ∧ settings.Records (i + 3) then
        some (asciiBytes (result.selected.report settings.limit))
      else texts settings corpus schedules tree i length := by
  funext length
  by_cases own : length = i + 3 ∧ settings.Records (i + 3)
  · rcases own with ⟨rfl, records⟩
    rw [if_pos ⟨rfl, records⟩]
    exact texts_of_passed done (Nat.lt_succ_self i) records
  · rw [if_neg own, texts, texts]
    congr 1
    apply propext
    constructor
    · rintro ⟨least, most, records⟩
      refine ⟨least, Nat.lt_of_le_of_ne (by omega) ?_, records⟩
      rintro rfl
      exact own ⟨rfl, records⟩
    · rintro ⟨least, most, records⟩
      exact ⟨least, by omega, records⟩

/-- The tree that a pass starts from holds what the passes before it have written, and nothing else
under the stem. -/
theorem holds_of_startsFrom (valid : settings.check = .ok ())
    (asked : settings.outputStem = some stem) {folder : List Name}
    (clear : tree.Holds stem folder fun _ => none) {i : Nat} {before : FileTree}
    (starts : StartsFrom settings corpus schedules tree i before) :
    before.Holds stem folder (texts settings corpus schedules tree i) := by
  refine startsFrom_induction valid
    (P := fun i before => before.Holds stem folder (texts settings corpus schedules tree i))
    ?first ?keeps starts
  case first =>
    have nothing : texts settings corpus schedules tree 0 = fun _ => none := by
      funext length
      refine texts_of_not ?_
      rintro ⟨least, most, -⟩
      omega
    rwa [nothing]
  case keeps =>
    intro i before after result space _ holds done _ _ width ran
    rw [texts_succ i done]
    rcases pass_eq_ok ran with ⟨tally, totals, selected, -, -, recorded⟩
    rcases record_cases recorded with ⟨other, again, records, written, rfl⟩ | ⟨unrecorded, rfl, -⟩
    · rw [asked] at again
      cases again
      dsimp only at width
      rw [width] at written
      have unwritten : texts settings corpus schedules tree i (i + 3) = none :=
        texts_of_not fun inside => Nat.lt_irrefl _ inside.2.1
      have new := holds.write unwritten written
      simpa only [records, and_true] using new
    · have none := unrecorded stem asked
      simpa only [none, and_false, if_false] using holds

/-! ## Ends of a census -/

/-- A pass names the file that it has written, if it has written one. -/
theorem output_of_passed (valid : settings.check = .ok ())
    (asked : settings.outputStem = some stem) {i : Nat} {after : FileTree} {result : PassResult}
    (done : passed settings corpus schedules tree i = .ok (after, result)) :
    result.length = i + 3 ∧
      result.output =
        if settings.Records (i + 3) then some (resultPath stem (i + 3)) else none := by
  rcases pass_of_passed valid done with ⟨before, space, -, -, -, width, ran⟩
  rcases pass_eq_ok ran with ⟨tally, totals, selected, -, -, recorded⟩
  rcases record_cases recorded with ⟨other, again, records, -, rfl⟩ | ⟨unrecorded, -, rfl⟩
  · rw [asked] at again
    cases again
    dsimp only at width ⊢
    exact ⟨rfl, by rw [if_pos records, width]⟩
  · exact ⟨rfl, (if_neg (unrecorded stem asked)).symm⟩

section Succeeding

variable {final : FileTree} {results : List PassResult}

/-- The results of a census are those of the lengths from three on, in this order. -/
theorem lengths_of_run (asked : settings.outputStem = some stem)
    (ran : run settings corpus schedules tree = (final, .ok results)) :
    results.map (·.length) = List.range' 3 (settings.gramLength - 2) := by
  rcases run_eq_ok ran with ⟨valid, -, length, each⟩
  apply List.ext_getElem?
  intro i
  rw [List.getElem?_map]
  cases listed : results[i]? with
  | none =>
    have behind := List.getElem?_eq_none_iff.1 listed
    rw [List.getElem?_eq_none (by rw [List.length_range']; omega)]
    rfl
  | some result =>
    rcases List.getElem?_eq_some_iff.1 listed with ⟨inside, -⟩
    rcases each i result listed with ⟨after, done⟩
    rw [List.getElem?_range' (by omega), Option.map_some, (output_of_passed valid asked done).1,
      Nat.one_mul, Nat.add_comm]

/-- A census leaves the files of its results, each with the report of what was selected. -/
theorem output_of_mem (asked : settings.outputStem = some stem)
    (ran : run settings corpus schedules tree = (final, .ok results)) {folder : List Name}
    (clear : tree.Holds stem folder fun _ => none) {result : PassResult}
    (member : result ∈ results) :
    if settings.Records result.length then
      result.output = some (resultPath stem result.length) ∧
        final.find (resultPath stem result.length) =
          .ok (.file (asciiBytes (result.selected.report settings.limit)))
    else result.output = none := by
  rcases run_eq_ok ran with ⟨valid, starts, -, -⟩
  rcases passed_of_mem ran member with ⟨i, after, inside, done⟩
  rcases output_of_passed valid asked done with ⟨length_eq, output_eq⟩
  rw [length_eq]
  split
  case isTrue records =>
    rw [if_pos records] at output_eq
    have holds := holds_of_startsFrom valid asked clear starts
    exact ⟨output_eq, holds.find_held (texts_of_passed done (by omega) records)⟩
  case isFalse unrecorded =>
    rw [if_neg unrecorded] at output_eq
    exact output_eq

end Succeeding

/-- A census that may write under a stem of which there are no results yet, and that succeeds, has a
result for every length from three on. Each of those that are to be recorded names its file, and the
file holds the report of its most frequent n-grams; there are no other files of the stem. A census
that fails in one of its passes has left the files of the passes before it, if all passes are to be
recorded, and no others; so it never leaves one of the last pass. -/
theorem run_writes (asked : settings.outputStem = some stem) (clear : tree.Clear stem) :
    (∀ final results, run settings corpus schedules tree = (final, .ok results) →
      results.map (·.length) = List.range' 3 (settings.gramLength - 2) ∧
      (∀ result ∈ results,
        if settings.Records result.length then
          result.output = some (resultPath stem result.length) ∧
            final.find (resultPath stem result.length) =
              .ok (.file (asciiBytes (result.selected.report settings.limit)))
        else result.output = none) ∧
      ∀ length, ¬ (3 ≤ length ∧ length ≤ settings.gramLength ∧ settings.Records length) →
        ∀ node, final.find (resultPath stem length) ≠ .ok node) ∧
    (∀ final failure, run settings corpus schedules tree = (final, .error failure) →
      (prepare settings = .error failure ∧ final = tree ∨
        ∃ i, i + 3 ≤ settings.gramLength ∧
          passed settings corpus schedules tree i = .error failure ∧
          (∀ j < i, ∃ after result, passed settings corpus schedules tree j = .ok (after, result) ∧
            (settings.recordAll = true → final.find (resultPath stem (j + 3)) =
              .ok (.file (asciiBytes (result.selected.report settings.limit))))) ∧
          ∀ length, ¬ (3 ≤ length ∧ length < i + 3 ∧ settings.recordAll = true) →
            ∀ node, final.find (resultPath stem length) ≠ .ok node) ∧
      ∀ node, final.find (resultPath stem settings.gramLength) ≠ .ok node) := by
  rcases clear.holds with ⟨folder, nothing⟩
  refine ⟨fun final results ran => ?_, fun final failure ran => ?_⟩
  · refine ⟨lengths_of_run asked ran, fun result => output_of_mem asked ran nothing, ?_⟩
    rcases run_eq_ok ran with ⟨valid, starts, length_eq, -⟩
    intro length outside
    refine (holds_of_startsFrom valid asked nothing starts).find_free (texts_of_not ?_)
    rintro ⟨least, most, records⟩
    exact outside ⟨least, by omega, records⟩
  · rcases run_eq_error ran with ⟨refused, rfl⟩ | ⟨valid, i, inside, starts, failed⟩
    · exact ⟨.inl ⟨refused, rfl⟩, nothing.find_free rfl⟩
    · have holds := holds_of_startsFrom valid asked nothing starts
      -- Behind a failure the last pass never comes, so whatever is recorded is recorded of all.
      have free : ∀ length, ¬ (3 ≤ length ∧ length < i + 3 ∧ settings.recordAll = true) →
          ∀ node, final.find (resultPath stem length) ≠ .ok node := by
        intro length outside
        refine holds.find_free (texts_of_not ?_)
        rintro ⟨least, before, records⟩
        exact outside ⟨least, before, records.resolve_right (by omega)⟩
      refine ⟨.inr ⟨i, inside, failed, fun j earlier => ?_, free⟩, free _ (by omega)⟩
      rcases passed_of_startsFrom starts earlier with ⟨after, result, done⟩
      refine ⟨after, result, done, fun all => ?_⟩
      exact holds.find_held (texts_of_passed done earlier (.inl all))

end

-- What follows runs where all memory can be had.
attribute [local instance] Memory.whole

/-- Two files of three bytes have no longer n-gram, so the second pass fails behind the file of the
first. -/
theorem run_writes_of_short_files :
    ∃ final failure,
      run (recording "out/grams") (.ofFiles [[97, 98, 99], [97, 98, 99]]) (fun _ => []) twoFolders =
        (final, .error failure) ∧
      final.find "out/grams.3.txt".toList =
        .ok (.file (asciiBytes "ngram,count\n0x616263,2\n".toList)) ∧
      ∀ node, final.find "out/grams.4.txt".toList ≠ .ok node := by
  have fails : (run (recording "out/grams") (.ofFiles [[97, 98, 99], [97, 98, 99]]) (fun _ => [])
      twoFolders).2.toOption.isSome = false := by
    decide +kernel
  have report : ((passed (recording "out/grams") (.ofFiles [[97, 98, 99], [97, 98, 99]])
      (fun _ => []) twoFolders 0).toOption.map fun done =>
        done.2.selected.report (recording "out/grams").limit) =
          some "ngram,count\n0x616263,2\n".toList := by
    decide +kernel
  have clear : twoFolders.Clear "out/grams".toList := by
    refine ⟨["out".toList], [], by decide, rfl, fun _ => rfl⟩
  rcases ran : run (recording "out/grams") (.ofFiles [[97, 98, 99], [97, 98, 99]]) (fun _ => [])
      twoFolders with ⟨final, outcome⟩
  cases outcome with
  | ok results =>
    rw [ran] at fails
    cases fails
  | error failure =>
    rcases (run_writes rfl clear).2 final failure ran with
      ⟨⟨refused, -⟩ | ⟨i, most, failed, earlier, -⟩, free⟩
    · cases refused
    · refine ⟨final, failure, rfl, ?_, free⟩
      cases i with
      | zero =>
        rw [failed] at report
        cases report
      | succ i =>
        rcases earlier 0 (Nat.zero_lt_succ i) with ⟨after, result, done, found⟩
        rw [done] at report
        rw [← Option.some.inj report]
        exact found rfl

end Census

end GramCensus
