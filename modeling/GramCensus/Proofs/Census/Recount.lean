import GramCensus.Proofs.Census.Course
import GramCensus.Proofs.FileTree.Walking
import GramCensus.Proofs.Pass.Totals

/-!
# Passes over a tree that is written to

Every pass of a census walks the tree again, and the results of the passes before it stand there.
A pass that finds them counts them like any other file (`Census.run_counts_own_results`). Where no
pass finds the results of an earlier one, all passes count the same files (`Census.run_recounts`).
-/

namespace GramCensus

/-- The files and the bytes of a pass are those that a walk finds. -/
structure PassTotals.OfWalk (totals : PassTotals) (roots : List Path) (depth : Nat) (view : View) :
    Prop where
  files_eq : totals.files = (Walk.files view (Walk.start roots depth)).length
  bytes_eq : totals.bytes =
    ((Walk.files view (Walk.start roots depth)).map fun found => found.data.length).sum

/-- The totals of a pass over a walk are those of what the walk finds. -/
theorem Pass.totals_of_walk [Memory] {settings : Settings} {space : Space} {roots : List Path}
    {depth next : Nat} {pending : List Pending} {view : View} (valid : settings.check = .ok ())
    (made : space.Made) {schedule : List Turn} {tally : Tally} {totals : PassTotals}
    (counted : count settings space ((Corpus.walked roots depth pending next).files view) schedule =
      .ok (tally, totals)) : totals.OfWalk roots depth view := by
  rcases totals_of_count valid made (Corpus.pairwise_id_files _ _) counted with
    ⟨files_eq, bytes_eq, -⟩
  rw [Corpus.files, Corpus.reset, Corpus.rest] at files_eq bytes_eq
  constructor
  · rw [files_eq, List.length_map, List.length_zipIdx]
  · -- A file that is read at once delivers all its data.
    rw [bytes_eq, List.map_map]
    have each : ∀ entry : Found × Nat,
        ((Stream.ofBytes entry.1.data).delivered settings.chunkSize).length =
          entry.1.data.length := by
      intro entry
      rw [Stream.delivered_ofBytes]
    simp only [Function.comp_def, each]
    conv_rhs =>
      rw [← List.zipIdx_map_fst 0 (Walk.files view (Walk.start roots depth)), List.map_map]
    rfl

namespace Census

variable {settings : Settings} {schedules : Schedules} {tree : FileTree} {roots : List Path}
  {depth next : Nat} {pending : List Pending}

/-- No pass finds, in the tree that it leaves, the results that it has written for the passes behind
it. -/
def Apart [Memory] (settings : Settings) (corpus : Corpus) (schedules : Schedules) (tree : FileTree)
    (roots : List Path) (depth : Nat) : Prop :=
  ∀ i after result stem, passed settings corpus schedules tree i = .ok (after, result) →
    i + 3 < settings.gramLength → settings.recordAll = true → settings.outputStem = some stem →
      ∀ found ∈ Walk.files after.view (Walk.start roots depth),
        after.locate found.path ≠ after.locate (resultPath stem (i + 3))

/-- All passes start from trees in which a walk finds the same. -/
theorem files_of_startsFrom [Memory] {corpus : Corpus} (valid : settings.check = .ok ())
    (grounded : tree.Grounded) (apart : Apart settings corpus schedules tree roots depth) {i : Nat}
    {before : FileTree} (starts : StartsFrom settings corpus schedules tree i before) :
    before.Grounded ∧ (i + 3 ≤ settings.gramLength →
      Walk.files before.view (Walk.start roots depth) =
        Walk.files tree.view (Walk.start roots depth)) := by
  refine startsFrom_induction valid
    (P := fun i before => before.Grounded ∧ (i + 3 ≤ settings.gramLength →
      Walk.files before.view (Walk.start roots depth) =
        Walk.files tree.view (Walk.start roots depth))) ⟨grounded, fun _ => rfl⟩ ?_ starts
  intro i before after result space _ earlier done _ _ width ran
  rcases earlier with ⟨there, same⟩
  rcases pass_eq_ok ran with ⟨tally, totals, selected, -, -, recorded⟩
  rcases record_cases recorded with ⟨stem, asked, records, written, rfl⟩ | ⟨-, rfl, -⟩
  case inr => exact ⟨there, fun inside => same (by omega)⟩
  case inl =>
    dsimp only at width
    rw [width] at written
    rcases FileTree.wrote_of_write (FileTree.outlineAt_startOf there _) written with
      ⟨rfl, -⟩ | ⟨base, name, wrote⟩
    · exact ⟨there, fun inside => same (by omega)⟩
    · refine ⟨wrote.grounded there, fun inside => ?_⟩
      have shorter : i + 3 < settings.gramLength := by omega
      have all : settings.recordAll = true :=
        records.resolve_right (Nat.ne_of_lt shorter)
      rw [wrote.files_eq (apart i after _ stem done shorter all asked)]
      exact same (by omega)

/-- Every pass counts the files and the bytes that a walk finds in the tree that it starts from, the
results of earlier passes among them. Where no pass finds the results of an earlier one, they are
those that a walk finds in the tree before the first pass. -/
theorem run_recounts [Memory] (grounded : tree.Grounded) {results : List PassResult}
    (ran : (run settings (.walked roots depth pending next) schedules tree).2 = .ok results) :
    (∀ i result, results[i]? = some result →
      ∃ before, StartsFrom settings (.walked roots depth pending next) schedules tree i before ∧
        result.totals.OfWalk roots depth before.view) ∧
      (Apart settings (.walked roots depth pending next) schedules tree roots depth →
        ∀ result ∈ results, result.totals.OfWalk roots depth tree.view) := by
  rcases whole : run settings (.walked roots depth pending next) schedules tree with
    ⟨final, outcome⟩
  obtain rfl : outcome = .ok results := (congrArg Prod.snd whole).symm.trans ran
  rcases run_eq_ok whole with ⟨valid, -, passes, each⟩
  have counts : ∀ i result, results[i]? = some result →
      ∃ before, StartsFrom settings (.walked roots depth pending next) schedules tree i before ∧
        result.totals.OfWalk roots depth before.view := by
    intro i result listed
    rcases each i result listed with ⟨after, done⟩
    rcases pass_of_passed valid done with ⟨before, space, starts, made, -, -, counts⟩
    rcases pass_eq_ok counts with ⟨tally, totals, selected, counted, -, recorded⟩
    have totals_eq : result.totals = totals := by
      rcases record_cases recorded with ⟨stem, -, -, -, rfl⟩ | ⟨-, -, rfl⟩ <;> rfl
    refine ⟨before, starts, ?_⟩
    rw [totals_eq]
    exact Pass.totals_of_walk valid made counted
  refine ⟨counts, fun apart result member => ?_⟩
  rcases List.getElem?_of_mem member with ⟨i, listed⟩
  rcases List.getElem?_eq_some_iff.1 listed with ⟨inside, -⟩
  rcases counts i result listed with ⟨before, starts, files_eq, bytes_eq⟩
  have same := (files_of_startsFrom valid grounded apart starts).2 (by omega)
  rw [same] at files_eq bytes_eq
  exact ⟨files_eq, bytes_eq⟩

-- What follows runs where all memory can be had.
attribute [local instance] Memory.whole

/-- With results in the folder that is walked the second pass counts those of the first. -/
theorem run_counts_own_results :
    ∃ first second,
      (run (recording "in/grams") (.ofRoots ["in".toList] 10) (fun _ => []) twoFolders).2 =
        .ok [first, second] ∧
      first.totals.files = 2 ∧ second.totals.files = 3 ∧
        first.totals.bytes ≠ second.totals.bytes := by
  have counted : ((run (recording "in/grams") (.ofRoots ["in".toList] 10) (fun _ => [])
      twoFolders).2.toOption.map (·.map fun result => (result.totals.files, result.totals.bytes))) =
        some [(2, 8), (3, 31)] := by
    decide +kernel
  cases ran : (run (recording "in/grams") (.ofRoots ["in".toList] 10) (fun _ => [])
      twoFolders).2 with
  | error failure =>
    rw [ran] at counted
    cases counted
  | ok results =>
    rw [ran] at counted
    rcases List.map_eq_cons_iff.1 (Option.some.inj counted) with ⟨first, rest, rfl, one, later⟩
    rcases List.map_eq_cons_iff.1 later with ⟨second, none, rfl, two, ended⟩
    obtain rfl := List.map_eq_nil_iff.1 ended
    rcases Prod.mk.inj one with ⟨files, bytes⟩
    rcases Prod.mk.inj two with ⟨moreFiles, moreBytes⟩
    exact ⟨first, second, rfl, files, moreFiles, by rw [bytes, moreBytes]; decide⟩

/-- With results in the other folder both passes count the two files. -/
theorem run_recounts_of_other_folder :
    ∃ results,
      (run (recording "out/grams") (.ofRoots ["in".toList] 10) (fun _ => []) twoFolders).2 =
        .ok results ∧ results.length = 2 ∧
      ∀ result ∈ results, result.totals.files = 2 ∧ result.totals.bytes = 8 := by
  have apart : Apart (recording "out/grams") (.ofRoots ["in".toList] 10) (fun _ => []) twoFolders
      ["in".toList] 10 := by
    intro i after result stem done inside _ asked
    obtain rfl : i = 0 := Nat.lt_one_iff.1 (Nat.lt_of_add_lt_add_right inside)
    cases asked
    have elsewhere : ((passed (recording "out/grams") (.ofRoots ["in".toList] 10) (fun _ => [])
        twoFolders 0).toOption.map fun left =>
          (Walk.files left.1.view (Walk.start ["in".toList] 10)).all fun found =>
            decide (left.1.locate found.path ≠ left.1.locate (resultPath "out/grams".toList 3))) =
              some true := by
      decide +kernel
    rw [done] at elsewhere
    exact fun found member =>
      of_decide_eq_true (List.all_eq_true.1 (Option.some.inj elsewhere) found member)
  have succeeds : ((run (recording "out/grams") (.ofRoots ["in".toList] 10) (fun _ => [])
      twoFolders).2.toOption.map List.length) = some 2 := by
    decide +kernel
  cases ran : (run (recording "out/grams") (.ofRoots ["in".toList] 10) (fun _ => [])
      twoFolders).2 with
  | error failure =>
    rw [ran] at succeeds
    cases succeeds
  | ok results =>
    rw [ran] at succeeds
    refine ⟨results, rfl, Option.some.inj succeeds, fun result member => ?_⟩
    rcases (run_recounts (by unfold FileTree.Grounded; decide) ran).2 apart result member with
      ⟨files_eq, bytes_eq⟩
    exact ⟨files_eq, bytes_eq⟩

end Census

end GramCensus
