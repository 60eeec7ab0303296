import GramCensus.Proofs.Census.Passes

/-!
# The course of a census

A census is a row of passes, each of which starts from the file tree that the one before it left
(`Census.StartsFrom`) and counts a space of n-grams one byte longer (`Census.pass_of_passed`). It
ends with the results of all of them, or with the failure of the first one that fails and the tree
that this one started from (`Census.run_cases`).
-/

namespace GramCensus

/-- Whether the results for n-grams of a length are to be written, if any are. -/
def Settings.Records (settings : Settings) (length : Nat) : Prop :=
  settings.recordAll = true ∨ length = settings.gramLength

namespace Tally

theorem width_of_top {tally : Tally} {k : Nat} {table : GramTable} (top : tally.top k = .ok table) :
    table.width = tally.space.gramLength := by
  rw [Tally.top, select] at top
  split at top
  · cases top
  · cases top
    rfl

end Tally

/-- The tally of a pass is over the space that the pass counts. -/
theorem Pass.space_of_count [Memory] {settings : Settings} {space : Space} {files : List OpenedFile}
    (valid : settings.check = .ok ()) (made : space.Made)
    (ascending : files.Pairwise fun a b => a.id < b.id) {schedule : List Turn} {tally : Tally}
    {totals : PassTotals} (counted : count settings space files schedule = .ok (tally, totals)) :
    tally.space = space := by
  rcases closed_of_count valid made ascending counted with
    ⟨running, other, flushed, closes, rfl, -⟩
  obtain ⟨closed, count, again, space_eq, -⟩ := close_closing valid made ascending running
  rw [closes] at again
  cases again
  exact space_eq

namespace Census

variable {settings : Settings} {corpus : Corpus} {schedules : Schedules} {tree after : FileTree}
  {space : Space} {length : Nat} {result : PassResult} {failure : Failure}

/-! ## One pass -/

/-- Recording writes the report under the path of the results, or does nothing. -/
theorem record_cases {selected : GramTable} {totals : PassTotals}
    (recorded : record settings length selected totals tree = .ok (after, result)) :
    (∃ stem, settings.outputStem = some stem ∧ settings.Records length ∧
        tree.write (resultPath stem selected.width) (asciiBytes (selected.report settings.limit)) =
          .ok after ∧
        result = ⟨length, selected, totals, some (resultPath stem selected.width)⟩) ∨
      (∀ stem, settings.outputStem = some stem → ¬ settings.Records length) ∧ after = tree ∧
        result = ⟨length, selected, totals, none⟩ := by
  rw [record] at recorded
  split at recorded
  case h_1 silent =>
    cases recorded
    refine .inr ⟨fun stem asked => ?_, rfl, rfl⟩
    rw [silent] at asked
    cases asked
  case h_2 stem asked =>
    split at recorded
    case isFalse unrecorded =>
      cases recorded
      exact .inr ⟨fun _ _ => unrecorded, rfl, rfl⟩
    case isTrue records =>
      rw [writeResults] at recorded
      cases written : tree.write (resultPath stem selected.width)
          (asciiBytes (selected.report settings.limit)) with
      | error cause =>
        simp only [written] at recorded
        cases recorded
      | ok changed =>
        simp only [written] at recorded
        cases recorded
        exact .inl ⟨stem, asked, records, written, rfl⟩

variable [Memory]

/-- A pass that succeeds has counted, selected and recorded. -/
theorem pass_eq_ok (passed : pass settings corpus schedules length space tree =
    .ok (after, result)) :
    ∃ tally totals selected,
      Pass.count settings space (corpus.files tree.view) (schedules length) = .ok (tally, totals) ∧
      tally.top (settings.quota length) = .ok selected ∧
      record settings length selected totals tree = .ok (after, result) := by
  rw [pass] at passed
  cases counted : Pass.count settings space (corpus.files tree.view) (schedules length) with
  | error failure =>
    rw [counted] at passed
    cases passed
  | ok both =>
    rcases both with ⟨tally, totals⟩
    simp only [counted, bind, Except.bind] at passed
    cases top : tally.top (settings.quota length) with
    | error failure =>
      rw [top] at passed
      cases passed
    | ok selected =>
      rw [top] at passed
      exact ⟨tally, totals, selected, rfl, top, passed⟩

/-- The table of a pass has the width of its space. -/
theorem width_of_pass (valid : settings.check = .ok ()) (made : space.Made)
    (passed : pass settings corpus schedules length space tree = .ok (after, result)) :
    result.selected.width = space.gramLength := by
  rcases pass_eq_ok passed with ⟨tally, totals, selected, counted, top, recorded⟩
  rw [(record_eq_ok recorded).2, Tally.width_of_top top,
    Pass.space_of_count valid made (Corpus.pairwise_id_files _ _) counted]

/-- A pass over extensions is a pass over the space of a trie whose stems have the width of the
table. -/
theorem exists_space_of_extendingPass {kept : GramTable}
    (passed : extendingPass settings corpus schedules length kept tree = .ok (after, result)) :
    ∃ space : Space, space.Made ∧ space.gramLength = kept.width + 1 ∧
      pass settings corpus schedules length space tree = .ok (after, result) := by
  rw [extendingPass] at passed
  rcases building : RankTrie.build kept with ⟨ordered, outcome⟩
  rw [building] at passed
  cases outcome with
  | error failure => cases passed
  | ok trie =>
    have built := RankTrie.built_of_buildWith building
    exact ⟨.extensions trie, .extensions (congrArg Prod.snd building),
      congrArg (· + 1) built.stemLength_eq, passed⟩

/-! ## Passes in a row -/

/-- What the pass over n-grams of `i + 3` bytes ends with: the file tree as it leaves it and its
result, or the failure that it or a pass before it ended with. -/
def passed (settings : Settings) (corpus : Corpus) (schedules : Schedules) (tree : FileTree) :
    (i : Nat) → Except Failure (FileTree × PassResult)
  | 0 => pass settings corpus schedules 3 .trigrams tree
  | i + 1 => (passed settings corpus schedules tree i).bind fun before =>
      extendingPass settings corpus schedules (i + 4) before.2.selected before.1

/-- The file tree that the pass over n-grams of `i + 3` bytes starts from. -/
def StartsFrom (settings : Settings) (corpus : Corpus) (schedules : Schedules) (tree : FileTree)
    (i : Nat) (before : FileTree) : Prop :=
  match i with
  | 0 => before = tree
  | j + 1 => ∃ result, passed settings corpus schedules tree j = .ok (before, result)

theorem passed_succ_of_ok {i : Nat} {before : FileTree}
    (done : passed settings corpus schedules tree i = .ok (before, result)) :
    passed settings corpus schedules tree (i + 1) =
      extendingPass settings corpus schedules (i + 4) result.selected before := by
  rw [passed, done]
  rfl

/-- Every pass that succeeds is one over n-grams of its length, behind passes that succeeded. -/
theorem pass_of_passed (valid : settings.check = .ok ()) {i : Nat}
    (done : passed settings corpus schedules tree i = .ok (after, result)) :
    ∃ before space, StartsFrom settings corpus schedules tree i before ∧ space.Made ∧
      space.gramLength = i + 3 ∧ result.selected.width = i + 3 ∧
      pass settings corpus schedules (i + 3) space before = .ok (after, result) := by
  induction i generalizing after result with
  | zero => exact ⟨tree, .trigrams, rfl, .trigrams, rfl, width_of_pass valid .trigrams done, done⟩
  | succ i ih =>
    cases earlier : passed settings corpus schedules tree i with
    | error failure =>
      rw [passed, earlier] at done
      cases done
    | ok both =>
      rcases both with ⟨before, first⟩
      rw [passed_succ_of_ok earlier] at done
      rcases ih earlier with ⟨-, -, -, -, -, width, -⟩
      rcases exists_space_of_extendingPass done with ⟨space, made, wider, ran⟩
      rw [width] at wider
      exact ⟨before, space, ⟨first, earlier⟩, made, wider,
        (width_of_pass valid made ran).trans wider, ran⟩

/-- What holds of the first tree, and is kept by passes that succeed, holds of every tree that a
pass starts from. -/
theorem startsFrom_induction (valid : settings.check = .ok ()) {P : Nat → FileTree → Prop}
    (first : P 0 tree)
    (keeps : ∀ i before after result space, StartsFrom settings corpus schedules tree i before →
      P i before → passed settings corpus schedules tree i = .ok (after, result) → space.Made →
      space.gramLength = i + 3 → result.selected.width = i + 3 →
      pass settings corpus schedules (i + 3) space before = .ok (after, result) → P (i + 1) after)
    {i : Nat} {before : FileTree}
    (starts : StartsFrom settings corpus schedules tree i before) : P i before := by
  induction i generalizing before with
  | zero =>
    obtain rfl : before = tree := starts
    exact first
  | succ i ih =>
    rcases starts with ⟨result, done⟩
    rcases pass_of_passed valid done with ⟨earlier, space, starts, made, length, width, ran⟩
    exact keeps i earlier before result space starts (ih starts) done made length width ran

/-- A pass starts only where all passes before it have succeeded. -/
theorem passed_of_startsFrom {i j : Nat} {before : FileTree}
    (starts : StartsFrom settings corpus schedules tree i before) (earlier : j < i) :
    ∃ left result, passed settings corpus schedules tree j = .ok (left, result) := by
  induction i generalizing before with
  | zero => cases earlier
  | succ i ih =>
    rcases starts with ⟨result, done⟩
    rcases Nat.lt_or_eq_of_le (Nat.le_of_lt_succ earlier) with less | rfl
    · cases i with
      | zero => cases less
      | succ i =>
        cases first : passed settings corpus schedules tree i with
        | error failure =>
          rw [passed, first] at done
          cases done
        | ok both =>
          have starts : StartsFrom settings corpus schedules tree (i + 1) both.1 := ⟨both.2, first⟩
          exact ih starts less
    · exact ⟨before, result, done⟩

/-! ## How a census ends -/

/-- Some passes have ended with a file tree and with their results, or with a failure of one of
them and the tree that it started from. -/
inductive Ended (settings : Settings) (corpus : Corpus) (schedules : Schedules) (tree : FileTree)
    (first last : Nat) : FileTree × Except Failure (List PassResult) → Prop
  | done {final : FileTree} {results : List PassResult} :
      StartsFrom settings corpus schedules tree last final → first + results.length = last →
        (∀ i result, results[i]? = some result →
          ∃ after, passed settings corpus schedules tree (first + i) = .ok (after, result)) →
        Ended settings corpus schedules tree first last (final, .ok results)
  | failed {final : FileTree} {failure : Failure} {i : Nat} :
      StartsFrom settings corpus schedules tree i final → first ≤ i → i < last →
        passed settings corpus schedules tree i = .error failure →
        Ended settings corpus schedules tree first last (final, .error failure)

/-- Where a pass has succeeded, the passes behind it decide. -/
theorem ended_of_ok {i last : Nat} (done : passed settings corpus schedules tree i =
    .ok (after, result)) (next : FileTree → GramTable → FileTree × Except Failure (List PassResult))
    (later : Ended settings corpus schedules tree (i + 1) last (next after result.selected)) :
    Ended settings corpus schedules tree i last (andThen (.ok (after, result)) tree next) := by
  rw [andThen]
  generalize next after result.selected = outcome at later
  cases later with
  | @done final results starts length each =>
    refine .done starts (by rw [List.length_cons]; omega) ?_
    intro j found listed
    cases j with
    | zero =>
      cases listed
      exact ⟨after, done⟩
    | succ j =>
      rcases each j found listed with ⟨left, same⟩
      exact ⟨left, by rw [← same]; congr 1; omega⟩
  | failed starts least most failed => exact .failed starts (by omega) most failed

theorem ended_laterPasses {i remaining : Nat} {before : FileTree}
    (done : passed settings corpus schedules tree i = .ok (before, result)) :
    Ended settings corpus schedules tree (i + 1) (i + 1 + remaining)
      (laterPasses settings corpus schedules remaining (i + 4) result.selected before) := by
  induction remaining generalizing i before result with
  | zero =>
    have starts : StartsFrom settings corpus schedules tree (i + 1) before := ⟨result, done⟩
    exact .done starts rfl fun j found listed => by cases listed
  | succ remaining ih =>
    have next := passed_succ_of_ok done
    rw [laterPasses]
    cases ran : extendingPass settings corpus schedules (i + 4) result.selected before with
    | error failure =>
      rw [ran] at next
      have starts : StartsFrom settings corpus schedules tree (i + 1) before := ⟨result, done⟩
      exact .failed starts (Nat.le_refl _) (by omega) next
    | ok both =>
      rcases both with ⟨after, second⟩
      rw [ran] at next
      have later := ih next
      rw [show i + 1 + 1 + remaining = i + 1 + (remaining + 1) by omega] at later
      have whole := ended_of_ok next
        (fun after selected =>
          laterPasses settings corpus schedules remaining (i + 4 + 1) selected after) later
      rw [andThen] at whole ⊢
      exact whole

/-- A census is refused before its first pass, or goes through its passes up to the last one or to
the first that fails. -/
theorem run_cases :
    (∃ failure, prepare settings = .error failure ∧
        run settings corpus schedules tree = (tree, .error failure)) ∨
      prepare settings = .ok () ∧ Ended settings corpus schedules tree 0 (settings.gramLength - 2)
        (run settings corpus schedules tree) := by
  rw [run]
  cases prepared : prepare settings with
  | error failure => exact .inl ⟨failure, rfl, rfl⟩
  | ok =>
    have long := (Pass.check_eq_ok (prepare_eq_ok prepared)).1
    refine .inr ⟨rfl, ?_⟩
    cases ran : pass settings corpus schedules 3 .trigrams tree with
    | error failure =>
      have starts : StartsFrom settings corpus schedules tree 0 tree := rfl
      have failed : passed settings corpus schedules tree 0 = .error failure := ran
      exact .failed starts (Nat.zero_le _) (by omega) failed
    | ok both =>
      rcases both with ⟨after, result⟩
      have done : passed settings corpus schedules tree 0 = .ok (after, result) := ran
      have later := @ended_laterPasses settings corpus schedules tree result _ 0
        (settings.gramLength - 3) after done
      rw [show 0 + 1 + (settings.gramLength - 3) = settings.gramLength - 2 by omega] at later
      exact ended_of_ok done _ later

/-- A census that succeeds has a result of every pass and leaves the tree behind the last. -/
theorem run_eq_ok {final : FileTree} {results : List PassResult}
    (ran : run settings corpus schedules tree = (final, .ok results)) :
    settings.check = .ok () ∧
      StartsFrom settings corpus schedules tree (settings.gramLength - 2) final ∧
      results.length + 2 = settings.gramLength ∧
      ∀ i result, results[i]? = some result →
        ∃ after, passed settings corpus schedules tree i = .ok (after, result) := by
  rcases @run_cases settings corpus schedules tree _ with ⟨failure, -, stays⟩ | ⟨prepared, ended⟩
  · rw [stays] at ran
    cases ran
  · have valid := prepare_eq_ok prepared
    have long := (Pass.check_eq_ok valid).1
    rw [ran] at ended
    cases ended with
    | done starts length each =>
      refine ⟨valid, starts, by omega, fun i result listed => ?_⟩
      rcases each i result listed with ⟨after, done⟩
      exact ⟨after, by rwa [Nat.zero_add] at done⟩

theorem passed_of_mem {final : FileTree} {results : List PassResult}
    (ran : run settings corpus schedules tree = (final, .ok results)) (member : result ∈ results) :
    ∃ i after, i + 3 ≤ settings.gramLength ∧
      passed settings corpus schedules tree i = .ok (after, result) := by
  rcases run_eq_ok ran with ⟨-, -, length, each⟩
  rcases List.getElem?_of_mem member with ⟨i, listed⟩
  rcases List.getElem?_eq_some_iff.1 listed with ⟨inside, -⟩
  rcases each i result listed with ⟨after, done⟩
  exact ⟨i, after, by omega, done⟩

/-- A census that fails is refused, or leaves the tree that its first failing pass started from. -/
theorem run_eq_error {final : FileTree}
    (ran : run settings corpus schedules tree = (final, .error failure)) :
    prepare settings = .error failure ∧ final = tree ∨
      settings.check = .ok () ∧ ∃ i, i + 3 ≤ settings.gramLength ∧
        StartsFrom settings corpus schedules tree i final ∧
        passed settings corpus schedules tree i = .error failure := by
  rcases @run_cases settings corpus schedules tree _ with
    ⟨refusal, refused, stays⟩ | ⟨prepared, ended⟩
  · rw [stays] at ran
    cases ran
    exact .inl ⟨refused, rfl⟩
  · have valid := prepare_eq_ok prepared
    have long := (Pass.check_eq_ok valid).1
    rw [ran] at ended
    cases ended with
    | @failed _ _ i starts _ most failed => exact .inr ⟨valid, i, by omega, starts, failed⟩

/-! ## A census of two folders -/

/-- Two files of four equal bytes in one folder, beside an empty one. -/
def twoFolders : FileTree where
  root := .folder [
    ("in".toList, .folder [
      ("a".toList, .file [97, 97, 97, 97]), ("b".toList, .file [97, 97, 97, 97])]),
    ("out".toList, .folder [])]
  here := []

/-- Results of n-grams of three and of four bytes, written under a stem. -/
def recording (stem : String) : Settings :=
  { Settings.usual with
    gramLength := 4, limit := 1, recordAll := true, outputStem := some stem.toList }

end Census

end GramCensus
