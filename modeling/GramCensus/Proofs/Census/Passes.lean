import GramCensus.Proofs.Census.Choice

/-!
# Passes in a row

The passes of a census follow a specification that mentions neither tallies nor tries: every pass
selects from the extensions of what the pass before it kept, taken in rank order (`Chosen`). There
is only one way to do so (`Chosen.unique`).
-/

namespace GramCensus

/-! ## Rank order -/

/-- The n-grams of a table in rank order. -/
structure GramTable.Ranks (table : GramTable) (stems : List Bytes) : Prop where
  perm : stems.Perm (table.entries.map (·.gram))
  ranked : stems.Pairwise (RanksBefore table.entries)

namespace GramTable

variable {table other : GramTable} {frequency : Bytes → Nat} {k : Nat}
  {candidates stems others : List Bytes}

theorem Selects.nodup (selects : table.Selects frequency k candidates) (distinct : candidates.Nodup) :
    (table.entries.map (·.gram)).Nodup :=
  distinct.sublist selects.selection.sublist

theorem Selects.unique (selects : table.Selects frequency k candidates)
    (again : other.Selects frequency k candidates) (distinct : candidates.Nodup) :
    table.entries = other.entries := by
  -- The counts of the entries are the frequencies of their n-grams.
  have read : ∀ {table : GramTable}, table.Selects frequency k candidates → table.entries =
      (table.entries.map (·.gram)).map fun gram => ⟨gram, (frequency gram).toUInt32⟩ := by
    intro table selects
    rw [List.map_map, eq_comm, List.map_congr_left, List.map_id]
    intro e member
    rw [Function.comp_apply, ← selects.counted e member, Nat.toUInt32_eq, UInt32.ofNat_toNat]
    rfl
  rw [read selects, read again, selects.selection.unique distinct again.selection]

theorem Ranks.unique (ranks : table.Ranks stems) (again : other.Ranks others)
    (same : table.entries = other.entries) : stems = others := by
  have ordered := again.ranked
  rw [← same] at ordered
  refine List.Perm.eq_of_pairwise (fun a b _ _ first second => ?_) ranks.ranked ordered ?_
  · exact absurd second first.asymm
  · have perm := again.perm
    rw [← same] at perm
    exact ranks.perm.trans perm.symm

end GramTable

/-! ## What passes choose -/

/-- The results of all passes from a length on. The first of them selects from some candidates, each
other one from the extensions of what the one before it kept, in rank order. -/
inductive Chosen (frequency : Bytes → Nat) (quota : Nat → Nat) :
    (length : Nat) → (candidates : List Bytes) → (results : List PassResult) → Prop
  | last {length : Nat} {candidates : List Bytes} {result : PassResult} :
      result.length = length → result.selected.Selects frequency (quota length) candidates →
        Chosen frequency quota length candidates [result]
  | more {length : Nat} {candidates stems : List Bytes} {result : PassResult}
      {later : List PassResult} :
      result.length = length → result.selected.Selects frequency (quota length) candidates →
        result.selected.Ranks stems →
        Chosen frequency quota (length + 1) (extended stems) later →
        Chosen frequency quota length candidates (result :: later)

/-- There is one way to choose only. -/
theorem Chosen.unique {frequency : Bytes → Nat} {quota : Nat → Nat} {length : Nat}
    {candidates : List Bytes} {results others : List PassResult}
    (chosen : Chosen frequency quota length candidates results)
    (again : Chosen frequency quota length candidates others)
    (same : results.length = others.length) (distinct : candidates.Nodup) :
    results.map (·.selected.entries) = others.map (·.selected.entries) := by
  -- The induction is on the passes; one selection and one rank order leave the next pass no choice.
  induction chosen generalizing others with
  | last length_eq selects =>
    cases again with
    | last otherLength others => exact congrArg ([·]) (selects.unique others distinct)
    | more _ _ _ rest => cases rest <;> cases same
  | more length_eq selects ranks rest ih =>
    cases again with
    | last _ _ => cases rest <;> cases same
    | more otherLength othersSelect othersRank othersRest =>
      have entries := selects.unique othersSelect distinct
      have stems := ranks.unique othersRank entries
      have nodup := ranks.perm.nodup_iff.2 (selects.nodup distinct)
      rw [← stems] at othersRest
      rw [List.map_cons, List.map_cons, entries]
      exact congrArg _ (ih othersRest (Nat.succ.inj same) (nodup_extended nodup))

namespace Census

variable {settings : Settings} {corpus : Corpus} {schedules : Schedules} {tree after : FileTree}
  {space : Space} {length : Nat} {result : PassResult}

/-- The frequency of an n-gram in a census: the number of files that deliver it. -/
abbrev frequency (settings : Settings) (corpus : Corpus) (tree : FileTree) : Bytes → Nat :=
  spread settings.chunkSize (corpus.files tree.view)

theorem frequency_eq (files_eq : corpus.files after.view = corpus.files tree.view) :
    frequency settings corpus after = frequency settings corpus tree := by
  rw [frequency, files_eq]

/-! ## One pass -/

theorem record_eq_ok {selected : GramTable} {totals : PassTotals}
    (recorded : record settings length selected totals tree = .ok (after, result)) :
    result.length = length ∧ result.selected = selected := by
  rw [record] at recorded
  split at recorded
  · cases recorded
    exact ⟨rfl, rfl⟩
  · split at recorded
    · cases written : writeResults tree _ selected settings.limit with
      | error failure =>
        rw [written] at recorded
        cases recorded
      | ok both =>
        rw [written] at recorded
        cases recorded
        exact ⟨rfl, rfl⟩
    · cases recorded
      exact ⟨rfl, rfl⟩

theorem andThen_eq_ok {outcome : Except Failure (FileTree × PassResult)}
    {next : FileTree → GramTable → FileTree × Except Failure (List PassResult)}
    {results : List PassResult} (ran : (andThen outcome tree next).2 = .ok results) :
    ∃ after result later, outcome = .ok (after, result) ∧
      (next after result.selected).2 = .ok later ∧ results = result :: later := by
  cases outcome with
  | error failure => cases ran
  | ok both =>
    rcases both with ⟨after, result⟩
    rw [andThen] at ran
    cases going : (next after result.selected).2 with
    | error failure =>
      simp only [going] at ran
      cases ran
    | ok later =>
      simp only [going] at ran
      cases ran
      exact ⟨after, result, later, rfl, going, rfl⟩

variable [Memory]

/-- A pass that succeeds selects from the n-grams of its space. -/
theorem selects_of_pass (valid : settings.check = .ok ()) (made : space.Made)
    (few : (corpus.files tree.view).length < 2 ^ 32)
    (passed : pass settings corpus schedules length space tree = .ok (after, result)) :
    result.length = length ∧ result.selected.width = space.gramLength ∧
      result.selected.Selects (frequency settings corpus tree)
        (settings.quota length) space.grams := by
  rw [pass] at passed
  cases counted : Pass.count settings space (corpus.files tree.view) (schedules length) with
  | error failure =>
    rw [counted] at passed
    cases passed
  | ok both =>
    rcases both with ⟨tally, totals⟩
    have recorded := Pass.records_of_count valid made few (Corpus.pairwise_id_files _ _) counted
    rw [counted] at passed
    -- The selection is all that is left, and it fails only for a stem that was never extended.
    cases unseen : tally.unseenStem? with
    | some stem =>
      have fails := recorded.top_of_some made unseen (settings.quota length)
      simp only [bind, Except.bind, fails] at passed
      cases passed
    | none =>
      rcases recorded.top_of_none made unseen (settings.quota length) with
        ⟨table, top, width, selects⟩
      simp only [bind, Except.bind, top] at passed
      rcases record_eq_ok passed with ⟨length_eq, rfl⟩
      exact ⟨length_eq, width, selects⟩

/-- A pass over extensions that succeeds selects from the extensions of what was kept. -/
theorem selects_of_extendingPass (valid : settings.check = .ok ())
    (few : (corpus.files tree.view).length < 2 ^ 32) {kept : GramTable}
    (passed : extendingPass settings corpus schedules length kept tree = .ok (after, result)) :
    ∃ stems, kept.Ranks stems ∧ result.length = length ∧ result.selected.width = kept.width + 1 ∧
      result.selected.Selects (frequency settings corpus tree)
        (settings.quota length) (extended stems) := by
  rw [extendingPass] at passed
  rcases building : RankTrie.build kept with ⟨ordered, outcome⟩
  rw [building] at passed
  cases outcome with
  | error failure => cases passed
  | ok trie =>
    have built := RankTrie.built_of_buildWith building
    have made : Space.Made (.extensions trie) := .extensions (congrArg Prod.snd building)
    rcases selects_of_pass valid made few passed with ⟨length_eq, width, selects⟩
    -- The stems of the trie are the n-grams of the arranged table.
    have listed : trie.stems.map (·.2) = ordered.entries.map (·.gram) := by
      rw [built.spans.stems_eq, List.map_map]
      exact List.zipIdx_map_fst 0 _
    rw [Space.grams, listed] at selects
    refine ⟨ordered.entries.map (·.gram), ⟨built.perm.map _, ?_⟩, length_eq, ?_, selects⟩
    · exact List.pairwise_map.2 built.ranked
    · rw [width, Space.gramLength, built.stemLength_eq]

/-! ## What passes leave behind -/

/-- What the pass over n-grams of `i + 3` bytes leaves behind: the file tree and the n-grams that it
kept, or the failure that it or a pass before it ended with. -/
def leaves (settings : Settings) (corpus : Corpus) (schedules : Schedules) (tree : FileTree) :
    (i : Nat) → Except Failure (FileTree × GramTable)
  | 0 => (pass settings corpus schedules 3 .trigrams tree).map fun passed =>
      (passed.1, passed.2.selected)
  | i + 1 => (leaves settings corpus schedules tree i).bind fun before =>
      (extendingPass settings corpus schedules (i + 4) before.2 before.1).map fun passed =>
        (passed.1, passed.2.selected)

/-- All passes find the same files. -/
def SameFiles (settings : Settings) (corpus : Corpus) (schedules : Schedules) (tree : FileTree) :
    Prop :=
  ∀ i after kept, i + 3 < settings.gramLength →
    leaves settings corpus schedules tree i = .ok (after, kept) →
      corpus.files after.view = corpus.files tree.view

theorem leaves_succ_of_ok {i : Nat} {before : FileTree} {kept : GramTable}
    (reached : leaves settings corpus schedules tree i = .ok (before, kept)) :
    leaves settings corpus schedules tree (i + 1) =
      (extendingPass settings corpus schedules (i + 4) kept before).map fun passed =>
        (passed.1, passed.2.selected) := by
  rw [leaves, reached]
  rfl

/-- The passes behind one that has left something behind are chosen from the extensions of what it
kept. -/
theorem chosen_laterPasses (valid : settings.check = .ok ())
    (few : (corpus.files tree.view).length < 2 ^ 32)
    (same : SameFiles settings corpus schedules tree) {i remaining : Nat} {kept : GramTable}
    {before : FileTree} {results : List PassResult}
    (reached : leaves settings corpus schedules tree i = .ok (before, kept))
    (room : i + remaining + 4 ≤ settings.gramLength)
    (ran : (laterPasses settings corpus schedules (remaining + 1) (i + 4) kept before).2 =
      .ok results) :
    ∃ stems, kept.Ranks stems ∧ results.length = remaining + 1 ∧
      Chosen (frequency settings corpus tree) settings.quota (i + 4)
        (extended stems) results := by
  induction remaining generalizing i kept before results with
  | zero =>
    -- The last pass: nothing comes behind it.
    rcases andThen_eq_ok ran with ⟨after, result, later, passed, ended, rfl⟩
    cases ended
    have files_eq := same i before kept (by omega) reached
    rw [← files_eq] at few
    rcases selects_of_extendingPass valid few passed with ⟨stems, ranks, length_eq, -, selects⟩
    rw [frequency_eq files_eq] at selects
    exact ⟨stems, ranks, rfl, .last length_eq selects⟩
  | succ remaining ih =>
    rcases andThen_eq_ok ran with ⟨after, result, later, passed, going, rfl⟩
    have files_eq := same i before kept (by omega) reached
    have left : leaves settings corpus schedules tree (i + 1) = .ok (after, result.selected) := by
      rw [leaves_succ_of_ok reached, passed]
      rfl
    rcases ih left (by omega) going with ⟨next, nextRanks, length_later, chosen⟩
    rw [← files_eq] at few
    rcases selects_of_extendingPass valid few passed with ⟨stems, ranks, length_eq, -, selects⟩
    rw [frequency_eq files_eq] at selects
    exact ⟨stems, ranks, congrArg (· + 1) length_later, .more length_eq selects nextRanks chosen⟩

theorem prepare_eq_ok (prepared : prepare settings = .ok ()) : settings.check = .ok () := by
  rw [prepare] at prepared
  cases checked : settings.check with
  | error failure =>
    rw [checked] at prepared
    cases prepared
  | ok => rfl

/-- A census that succeeds has one result for every length from three on, each of them chosen from
the extensions of the one before. -/
theorem chosen_of_run (few : (corpus.files tree.view).length < 2 ^ 32)
    (same : SameFiles settings corpus schedules tree) {results : List PassResult}
    (ran : (run settings corpus schedules tree).2 = .ok results) :
    3 ≤ settings.gramLength ∧ results.length = settings.gramLength - 2 ∧
      Chosen (frequency settings corpus tree) settings.quota 3 Space.allTrigrams results := by
  rw [run] at ran
  split at ran
  case h_1 => cases ran
  case h_2 prepared =>
    have valid := prepare_eq_ok prepared
    have long := (Pass.check_eq_ok valid).1
    rcases andThen_eq_ok ran with ⟨after, result, later, passed, going, rfl⟩
    rcases selects_of_pass valid .trigrams few passed with ⟨length_eq, -, selects⟩
    refine ⟨long, ?_⟩
    -- With n-grams of three bytes there is one pass only.
    cases behind : settings.gramLength - 3 with
    | zero =>
      rw [behind] at going
      cases going
      refine ⟨?_, .last length_eq selects⟩
      rw [List.length_singleton]
      omega
    | succ remaining =>
      rw [behind] at going
      have reached : leaves settings corpus schedules tree 0 = .ok (after, result.selected) := by
        rw [leaves, passed]
        rfl
      rcases chosen_laterPasses valid few same reached (by omega) going with
        ⟨stems, ranks, length_later, rest⟩
      refine ⟨?_, .more length_eq selects ranks rest⟩
      rw [List.length_cons, length_later]
      omega

end Census

end GramCensus
