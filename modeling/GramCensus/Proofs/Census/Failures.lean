import GramCensus.Proofs.Census.Passes

/-!
# When a census fails

With memory, and without results to write, a census fails in three ways only. A reader breaks down
in the first pass; or a pass has kept nothing that could be extended; or some n-gram that a pass has
kept goes on in no file, where the first such one in rank order is named (`Stalls`). Which way it is
depends on the files alone (`Census.run_error_iff`).
-/

namespace GramCensus

/-- Why the extensions of some n-grams cannot be counted and selected. -/
inductive Stalls (frequency : Bytes → Nat) (kept : GramTable) : Failure → Prop
  | noStems : kept.entries = [] → Stalls frequency kept .noStems
  /-- The first n-gram in rank order that no file extends. -/
  | unseenStem {stem : Bytes} :
      stem ∈ kept.entries.map (·.gram) → Unextended frequency stem →
        (∀ other ∈ kept.entries.map (·.gram), Unextended frequency other →
          other = stem ∨ RanksBefore kept.entries stem other) →
        Stalls frequency kept (.unseenStem stem)

namespace GramTable.Ranks

variable {kept : GramTable} {stems : List Bytes} {frequency : Bytes → Nat} {stem : Bytes}

/-- What a search in rank order finds is the first n-gram that no file extends. -/
theorem stalls_of_find? (ranks : kept.Ranks stems)
    (found : (stems.find? fun stem => decide (Unextended frequency stem)) = some stem) :
    Stalls frequency kept (.unseenStem stem) := by
  rcases List.find?_eq_some_iff_append.1 found with ⟨unextended, before, behind, split, others⟩
  have ranked := ranks.ranked
  rw [split] at ranked
  rcases List.pairwise_append.1 ranked with ⟨-, second, -⟩
  have later := (List.pairwise_cons.1 second).1
  have listed : stem ∈ stems := List.mem_of_find?_eq_some found
  refine .unseenStem (ranks.perm.mem_iff.1 listed) (of_decide_eq_true unextended) ?_
  intro other member stuck
  have place := ranks.perm.mem_iff.2 member
  rw [split] at place
  rcases List.mem_append.1 place with first | rest
  · have goesOn := others other first
    simp [stuck] at goesOn
  · rcases List.mem_cons.1 rest with same | behind
    · exact .inl same
    · exact .inr (later other behind)

theorem find?_of_stalls (ranks : kept.Ranks stems)
    (stalls : Stalls frequency kept (.unseenStem stem)) :
    (stems.find? fun stem => decide (Unextended frequency stem)) = some stem := by
  cases stalls with
  | unseenStem member unextended first =>
    cases found : stems.find? fun stem => decide (Unextended frequency stem) with
    | none =>
      have goesOn := List.find?_eq_none.1 found stem (ranks.perm.mem_iff.2 member)
      exact absurd (decide_eq_true unextended) goesOn
    | some other =>
      cases ranks.stalls_of_find? found with
      | unseenStem otherMember otherUnextended otherFirst =>
        -- Each of the two would come before the other.
        rcases first other otherMember otherUnextended with same | before
        · rw [same]
        · rcases otherFirst stem member unextended with same | after
          · rw [same]
          · exact absurd after before.asymm

/-- N-grams stall at the first one in rank order that no file extends, or if there are none. -/
theorem stalls_iff (ranks : kept.Ranks stems) (some_ : kept.entries ≠ []) {failure : Failure} :
    Stalls frequency kept failure ↔
      ∃ stem, (stems.find? fun stem => decide (Unextended frequency stem)) = some stem ∧
        failure = .unseenStem stem := by
  constructor
  · intro stalls
    cases stalls with
    | noStems none => exact absurd none some_
    | @unseenStem stem member unextended first =>
      exact ⟨stem, ranks.find?_of_stalls (.unseenStem member unextended first), rfl⟩
  · rintro ⟨stem, found, rfl⟩
    exact ranks.stalls_of_find? found

end GramTable.Ranks

theorem stalls_of_empty {frequency : Bytes → Nat} {kept : GramTable} (empty : kept.entries = [])
    {failure : Failure} : Stalls frequency kept failure ↔ failure = .noStems := by
  constructor
  · intro stalls
    cases stalls with
    | noStems _ => rfl
    | unseenStem member _ _ =>
      rw [empty] at member
      cases member
  · rintro rfl
    exact .noStems empty

namespace Census

variable {settings : Settings} {corpus : Corpus} {schedules : Schedules} {tree after : FileTree}
  {space : Space} {length : Nat} {kept : GramTable} {failure : Failure}

/-! ## One pass with memory -/

theorem andThen_of_error {first : Failure}
    {next : FileTree → GramTable → FileTree × Except Failure (List PassResult)} :
    (andThen (.error first) tree next).2 = .error failure ↔ first = failure := by
  constructor
  · rintro ⟨⟩
    rfl
  · rintro rfl
    rfl

/-- Behind a pass that succeeds, a census fails as its later passes do. -/
theorem andThen_of_ok {result : PassResult}
    {next : FileTree → GramTable → FileTree × Except Failure (List PassResult)} :
    (andThen (.ok (after, result)) tree next).2 = .error failure ↔
      (next after result.selected).2 = .error failure := by
  rw [andThen]
  cases going : (next after result.selected).2 with
  | error second =>
    simp only [going]
    exact Iff.rfl
  | ok later =>
    simp only [going]
    constructor <;> intro failed <;> cases failed

theorem record_of_silent (silent : settings.outputStem = none) (length : Nat)
    (selected : GramTable) (totals : PassTotals) (tree : FileTree) :
    record settings length selected totals tree = .ok (tree, ⟨length, selected, totals, none⟩) := by
  rw [record, silent]

section

variable [Memory]

/-- If no file breaks reading down, a pass has a tally and comes down to its selection. -/
theorem pass_of_intact (valid : settings.check = .ok ()) (silent : settings.outputStem = none)
    (made : space.Made) (few : (corpus.files tree.view).length < 2 ^ 32)
    (memory : Pass.HasMemory settings space)
    (readable : Pass.Readable settings space (corpus.files tree.view))
    (intact : ∀ file ∈ corpus.files tree.view, ¬ file.Breaks) :
    ∃ tally : Tally, tally.Records space settings.chunkSize (corpus.files tree.view) ∧
      (∀ stem, tally.unseenStem? = some stem →
        pass settings corpus schedules length space tree = .error (.unseenStem stem)) ∧
      (tally.unseenStem? = none → ∃ result,
        pass settings corpus schedules length space tree = .ok (tree, result)) := by
  rcases Pass.count_of_intact valid made (Corpus.pairwise_id_files _ _) memory readable intact
    (schedules length) with ⟨tally, totals, counted⟩
  have recorded := Pass.records_of_count valid made few (Corpus.pairwise_id_files _ _) counted
  -- With a tally at hand, only its selection can fail.
  refine ⟨tally, recorded, ?_, ?_⟩
  · intro stem unseen
    have fails := recorded.top_of_some made unseen (settings.quota length)
    simp only [pass, counted, bind, Except.bind, fails]
  · intro seen
    rcases recorded.top_of_none made seen (settings.quota length) with ⟨table, top, -, -⟩
    refine ⟨⟨length, table, totals, none⟩, ?_⟩
    simp only [pass, counted, bind, Except.bind, top, record_of_silent silent]

theorem pass_trigrams_of_intact (valid : settings.check = .ok ())
    (silent : settings.outputStem = none) (few : (corpus.files tree.view).length < 2 ^ 32)
    (memory : Pass.HasMemory settings .trigrams)
    (readable : Pass.Readable settings .trigrams (corpus.files tree.view))
    (intact : ∀ file ∈ corpus.files tree.view, ¬ file.Breaks) :
    ∃ result, pass settings corpus schedules length .trigrams tree = .ok (tree, result) := by
  rcases @pass_of_intact settings corpus schedules tree _ length _ valid silent .trigrams few memory
    readable intact with ⟨tally, recorded, -, succeeds⟩
  apply succeeds
  rw [Tally.unseenStem?, recorded.space_eq]

/-- There is memory for the extensions of some n-grams, and their trie is not too large. -/
structure Extendable (settings : Settings) (files : List OpenedFile) (kept : GramTable) : Prop where
  memory : ∀ trie, (RankTrie.build kept).2 = .ok trie → Pass.HasMemory settings (.extensions trie)
  readable : ∀ trie, (RankTrie.build kept).2 = .ok trie →
    Pass.Readable settings (.extensions trie) files
  fits : ∀ nodes slots,
    (RankTrie.build kept).2 ≠ .error (.settings (.trieTooLarge nodes slots))

theorem extendingPass_of_empty (empty : kept.entries = []) :
    extendingPass settings corpus schedules length kept tree = .error .noStems := by
  simp [extendingPass, RankTrie.build, RankTrie.buildWith, GramTable.isEmpty, empty]
  rfl

/-- Whether a pass over extensions fails, and how, depends on the files alone. -/
theorem extendingPass_of_intact (valid : settings.check = .ok ())
    (silent : settings.outputStem = none) (few : (corpus.files tree.view).length < 2 ^ 32)
    (intact : ∀ file ∈ corpus.files tree.view, ¬ file.Breaks) (positive : 0 < kept.width)
    (distinct : (kept.entries.map (·.gram)).Nodup)
    (extendable : Extendable settings (corpus.files tree.view) kept) :
    (∀ failure, extendingPass settings corpus schedules length kept tree = .error failure ↔
        Stalls (frequency settings corpus tree) kept failure) ∧
      ∀ after result, extendingPass settings corpus schedules length kept tree =
        .ok (after, result) → after = tree := by
  by_cases empty : kept.entries = []
  · rw [extendingPass_of_empty empty]
    refine ⟨?_, fun after result passed => by cases passed⟩
    intro failure
    rw [stalls_of_empty empty, Except.error.injEq, eq_comm]
  · rcases RankTrie.buildWith_eq_ok empty positive distinct extendable.fits with ⟨trie, building⟩
    have made : Space.Made (.extensions trie) := .extensions building
    have built := RankTrie.built_of_buildWith (Prod.ext rfl building)
    have ranks : kept.Ranks ((RankTrie.buildWith RankTrie.usualThreshold kept).1.entries.map
        (·.gram)) :=
      ⟨built.perm.map _, List.pairwise_map.2 built.ranked⟩
    have passes : extendingPass settings corpus schedules length kept tree =
        pass settings corpus schedules length (.extensions trie) tree := by
      rw [extendingPass, RankTrie.build, building]
      rfl
    rcases @pass_of_intact settings corpus schedules tree _ length _ valid silent made few
      (extendable.memory trie building) (extendable.readable trie building) intact with
      ⟨tally, recorded, fails, succeeds⟩
    -- The pass fails for the stem that the search in rank order finds, and for no other reason.
    rw [recorded.unseenStem?_eq made built.spans] at fails succeeds
    rw [passes]
    cases found : (RankTrie.buildWith RankTrie.usualThreshold kept).1.entries.map (·.gram) |>.find?
        fun stem => decide (Unextended (frequency settings corpus tree) stem) with
    | some stem =>
      rw [fails stem found]
      refine ⟨?_, fun after result passed => by cases passed⟩
      intro failure
      rw [ranks.stalls_iff empty, found, Except.error.injEq]
      constructor
      · rintro rfl
        exact ⟨stem, rfl, rfl⟩
      · rintro ⟨other, same, rfl⟩
        rw [Option.some.inj same]
    | none =>
      rcases succeeds found with ⟨result, passed⟩
      rw [passed]
      refine ⟨?_, ?_⟩
      · intro failure
        rw [ranks.stalls_iff empty, found]
        constructor
        · intro failed
          cases failed
        · rintro ⟨stem, none, -⟩
          cases none
      · rintro after result ⟨⟩
        rfl

/-! ## All passes with memory -/

/-- There is memory for a census: for its results, for its first pass, and for the extensions of
whatever a pass keeps. -/
structure HasRoom (settings : Settings) (corpus : Corpus) (schedules : Schedules)
    (tree : FileTree) : Prop where
  results : makeRoom .untouched (settings.gramLength - 2) resultBytes = .ok ()
  memory : Pass.HasMemory settings .trigrams
  readable : Pass.Readable settings .trigrams (corpus.files tree.view)
  extendable : ∀ i after kept, i + 3 < settings.gramLength →
    leaves settings corpus schedules tree i = .ok (after, kept) →
      Extendable settings (corpus.files tree.view) kept

/-- Nothing is written, so the file tree stays as it is, and what a pass keeps is all different. -/
theorem leaves_eq_ok (valid : settings.check = .ok ()) (silent : settings.outputStem = none)
    (few : (corpus.files tree.view).length < 2 ^ 32) (room : HasRoom settings corpus schedules tree)
    (intact : ∀ file ∈ corpus.files tree.view, ¬ file.Breaks) {i : Nat}
    (inside : i + 3 ≤ settings.gramLength)
    (reached : leaves settings corpus schedules tree i = .ok (after, kept)) :
    after = tree ∧ kept.width = i + 3 ∧ (kept.entries.map (·.gram)).Nodup := by
  induction i generalizing after kept with
  | zero =>
    rcases pass_trigrams_of_intact valid silent few room.memory room.readable intact with
      ⟨result, passed⟩
    rw [leaves, passed] at reached
    cases reached
    rcases selects_of_pass valid .trigrams few passed with ⟨-, width, selects⟩
    exact ⟨rfl, width, selects.nodup Space.Made.trigrams.nodup_grams⟩
  | succ i ih =>
    cases before : leaves settings corpus schedules tree i with
    | error failure =>
      rw [leaves, before] at reached
      cases reached
    | ok both =>
      rcases both with ⟨earlier, stems⟩
      rcases ih (by omega) before with ⟨rfl, width, distinct⟩
      rw [leaves_succ_of_ok before] at reached
      cases passed : extendingPass settings corpus schedules (i + 4) stems earlier with
      | error failure =>
        rw [passed] at reached
        cases reached
      | ok both =>
        rcases both with ⟨later, result⟩
        rw [passed] at reached
        cases reached
        -- The pass before kept different n-grams, so this one could be built and left the tree alone.
        have same := (extendingPass_of_intact valid silent few intact (by omega) distinct
          (room.extendable i earlier stems (by omega) before)).2 _ _ passed
        rcases selects_of_extendingPass valid few passed with ⟨ranked, ranks, -, wider, selects⟩
        refine ⟨same, ?_, selects.nodup (nodup_extended (ranks.perm.nodup_iff.2 distinct))⟩
        rw [wider, width]

/-- A failure stays the failure of all later passes. -/
theorem leaves_of_error {i : Nat}
    (failed : leaves settings corpus schedules tree i = .error failure) (more : Nat) :
    leaves settings corpus schedules tree (i + more) = .error failure := by
  induction more with
  | zero => exact failed
  | succ more ih =>
    rw [← Nat.add_assoc, leaves, ih]
    rfl

/-- The passes behind one that left something behind fail as the last of them does. -/
theorem laterPasses_error_iff {i remaining : Nat} {before : FileTree}
    (reached : leaves settings corpus schedules tree i = .ok (before, kept)) :
    (laterPasses settings corpus schedules remaining (i + 4) kept before).2 = .error failure ↔
      leaves settings corpus schedules tree (i + remaining) = .error failure := by
  induction remaining generalizing i kept before with
  | zero =>
    have none : leaves settings corpus schedules tree (i + 0) = .ok (before, kept) := reached
    rw [none, laterPasses]
    constructor <;> intro failed <;> cases failed
  | succ remaining ih =>
    have next := leaves_succ_of_ok reached
    -- One pass more is one step further in both.
    have index : i + (remaining + 1) = i + 1 + remaining := by omega
    rw [laterPasses, index]
    cases passed : extendingPass settings corpus schedules (i + 4) kept before with
    | error first =>
      rw [passed] at next
      rw [leaves_of_error next remaining, andThen_of_error, Except.error.injEq]
    | ok both =>
      rcases both with ⟨after, result⟩
      rw [passed] at next
      rw [← ih next, andThen_of_ok]

/-- A pass leaves nothing behind exactly if one of the passes up to it fails. -/
theorem leaves_error_iff {i : Nat} :
    leaves settings corpus schedules tree i = .error failure ↔
      pass settings corpus schedules 3 .trigrams tree = .error failure ∨
        ∃ j < i, ∃ before kept, leaves settings corpus schedules tree j = .ok (before, kept) ∧
          extendingPass settings corpus schedules (j + 4) kept before = .error failure := by
  have map_iff : ∀ (outcome : Except Failure (FileTree × PassResult)),
      outcome.map (fun passed => (passed.1, passed.2.selected)) = .error failure ↔
        outcome = .error failure := by
    rintro (first | both)
    · exact ⟨fun same => (by cases same; rfl), fun same => (by cases same; rfl)⟩
    · exact ⟨fun same => (by cases same), fun same => (by cases same)⟩
  induction i with
  | zero =>
    rw [leaves, map_iff]
    refine ⟨.inl, ?_⟩
    rintro (failed | ⟨j, inside, -⟩)
    · exact failed
    · cases inside
  | succ i ih =>
    cases reached : leaves settings corpus schedules tree i with
    | error first =>
      rw [leaves_of_error reached 1, ← reached]
      refine ih.trans (or_congr_right ⟨?_, ?_⟩)
      · rintro ⟨j, inside, rest⟩
        exact ⟨j, Nat.lt_succ_of_lt inside, rest⟩
      · rintro ⟨j, inside, before, kept, left, failed⟩
        rcases Nat.lt_or_eq_of_le (Nat.le_of_lt_succ inside) with earlier | rfl
        · exact ⟨j, earlier, before, kept, left, failed⟩
        · rw [reached] at left
          cases left
    | ok both =>
      rcases both with ⟨before, kept⟩
      rw [leaves_succ_of_ok reached, map_iff]
      constructor
      · exact fun failed => .inr ⟨i, Nat.lt_succ_self i, before, kept, reached, failed⟩
      · -- What failed earlier would have left nothing behind here.
        have intact := ih.not.1 (by rw [reached]; exact fun same => by cases same)
        rintro (failed | ⟨j, inside, other, stems, left, failed⟩)
        · exact absurd (.inl failed) intact
        · rcases Nat.lt_or_eq_of_le (Nat.le_of_lt_succ inside) with earlier | rfl
          · exact absurd (.inr ⟨j, earlier, other, stems, left, failed⟩) intact
          · rw [reached] at left
            cases left
            exact failed

theorem run_of_prepare (valid : settings.check = .ok ())
    (results : makeRoom .untouched (settings.gramLength - 2) resultBytes = .ok ()) :
    run settings corpus schedules tree =
      andThen (pass settings corpus schedules 3 .trigrams tree) tree fun after selected =>
        laterPasses settings corpus schedules (settings.gramLength - 3) 4 selected after := by
  have prepared : prepare settings = .ok () := by
    rw [prepare, valid]
    exact results
  rw [run, prepared]

/-- A census fails exactly if one of its passes does. -/
theorem run_eq_error_iff (valid : settings.check = .ok ())
    (results : makeRoom .untouched (settings.gramLength - 2) resultBytes = .ok ()) :
    (run settings corpus schedules tree).2 = .error failure ↔
      leaves settings corpus schedules tree (settings.gramLength - 3) = .error failure := by
  rw [run_of_prepare valid results]
  cases passed : pass settings corpus schedules 3 .trigrams tree with
  | error first =>
    have left : leaves settings corpus schedules tree 0 = .error first := by
      rw [leaves, passed]
      rfl
    have last := leaves_of_error left (settings.gramLength - 3)
    rw [Nat.zero_add] at last
    rw [last, andThen_of_error, Except.error.injEq]
  | ok both =>
    rcases both with ⟨after, result⟩
    have left : leaves settings corpus schedules tree 0 = .ok (after, result.selected) := by
      rw [leaves, passed]
      rfl
    have later := @laterPasses_error_iff settings corpus schedules tree result.selected failure _ 0
      (settings.gramLength - 3) after left
    rw [Nat.zero_add (settings.gramLength - 3)] at later
    rw [← later, andThen_of_ok]

/-- Without a breakdown a census fails exactly if some pass is reached that stalls. -/
theorem run_eq_error_iff_stalls (valid : settings.check = .ok ())
    (silent : settings.outputStem = none) (few : (corpus.files tree.view).length < 2 ^ 32)
    (room : HasRoom settings corpus schedules tree)
    (intact : ∀ file ∈ corpus.files tree.view, ¬ file.Breaks) :
    (run settings corpus schedules tree).2 = .error failure ↔
      ∃ i after kept, i + 3 < settings.gramLength ∧
        leaves settings corpus schedules tree i = .ok (after, kept) ∧
        Stalls (frequency settings corpus tree) kept failure := by
  rcases @pass_trigrams_of_intact settings corpus schedules tree 3 _ valid silent few room.memory
    room.readable intact with ⟨result, passed⟩
  -- Every pass that is reached stalls for the reason that its stems give.
  have stalls_iff : ∀ i after kept, i + 3 < settings.gramLength →
      leaves settings corpus schedules tree i = .ok (after, kept) →
      (extendingPass settings corpus schedules (i + 4) kept after = .error failure ↔
        Stalls (frequency settings corpus tree) kept failure) := by
    intro i after kept inside reached
    rcases leaves_eq_ok valid silent few room intact (by omega) reached with ⟨rfl, width, distinct⟩
    exact (extendingPass_of_intact valid silent few intact (by omega) distinct
      (room.extendable i after kept inside reached)).1 failure
  rw [run_eq_error_iff valid room.results, leaves_error_iff, passed]
  constructor
  · rintro (failed | ⟨i, inside, after, kept, reached, failed⟩)
    · cases failed
    · have small : i + 3 < settings.gramLength := by omega
      exact ⟨i, after, kept, small, reached, (stalls_iff i after kept small reached).1 failed⟩
  · rintro ⟨i, after, kept, small, reached, stalls⟩
    exact .inr ⟨i, by omega, after, kept, reached, (stalls_iff i after kept small reached).2 stalls⟩

end

/-! ## Files with one n-gram -/

theorem selects_single {frequency : Bytes → Nat} {candidates : List Bytes} {table : GramTable}
    {gram : Bytes} {count : UInt32} (entries : table.entries = [⟨gram, count⟩])
    (counted : count.toNat = frequency gram) (candidate : gram ∈ candidates)
    (twice : 2 ≤ frequency gram)
    (only : ∀ other ∈ candidates, 2 ≤ frequency other → other = gram) :
    table.Selects frequency 1 candidates := by
  have grams : table.entries.map (·.gram) = [gram] := by rw [entries]; rfl
  have some : 0 < candidates.countP fun other => 2 ≤ frequency other :=
    List.countP_pos_iff.2 ⟨gram, candidate, decide_eq_true twice⟩
  constructor
  · rw [grams]
    refine ⟨List.singleton_sublist.2 candidate, ?_, ?_, ?_⟩
    · intro x member
      rwa [List.mem_singleton.1 member]
    · rw [List.length_singleton]
      omega
    · intro x _ y listed out repeated_
      -- There is no second candidate that was met twice.
      exact absurd (List.mem_singleton.2 (only y listed repeated_)) out
  · intro e member
    rw [entries] at member
    rw [List.mem_singleton.1 member]
    exact counted

/-- Where one n-gram of three bytes is met twice and one may be kept, the first pass keeps it. -/
theorem leaves_zero_of_only [Memory] (valid : settings.check = .ok ())
    (silent : settings.outputStem = none)
    (few : (corpus.files tree.view).length < 2 ^ 32)
    (memory : Pass.HasMemory settings .trigrams)
    (readable : Pass.Readable settings .trigrams (corpus.files tree.view))
    (intact : ∀ file ∈ corpus.files tree.view, ¬ file.Breaks) (one : settings.quota 3 = 1)
    {gram : Bytes} (width : gram.length = 3) (twice : 2 ≤ frequency settings corpus tree gram)
    (only : ∀ other, other.length = 3 → 2 ≤ frequency settings corpus tree other → other = gram) :
    ∃ kept, leaves settings corpus schedules tree 0 = .ok (tree, kept) ∧ kept.width = 3 ∧
      kept.entries = [⟨gram, (frequency settings corpus tree gram).toUInt32⟩] := by
  rcases pass_trigrams_of_intact valid silent few memory readable intact with ⟨result, passed⟩
  rcases selects_of_pass valid .trigrams few passed with ⟨-, kept_width, selects⟩
  have small : frequency settings corpus tree gram < 2 ^ 32 :=
    Nat.lt_of_le_of_lt (spread_le_length _ _ _) few
  have single : GramTable.Selects
      ⟨3, [⟨gram, (frequency settings corpus tree gram).toUInt32⟩], by simpa using width⟩
      (frequency settings corpus tree) 1 Space.allTrigrams := by
    apply selects_single rfl
    · rw [Nat.toUInt32_eq, UInt32.toNat_ofNat_of_lt' small]
    · exact Space.mem_allTrigrams.2 width
    · exact twice
    · exact fun other listed => only other (Space.mem_allTrigrams.1 listed)
  rw [one] at selects
  refine ⟨result.selected, ?_, kept_width, ?_⟩
  · rw [leaves, passed]
    rfl
  · exact selects.unique single Space.Made.trigrams.nodup_grams

/-- Settings that ask for the most frequent n-gram of four bytes. -/
def fourBytes : Settings :=
  { Settings.usual with gramLength := 4, limit := 1 }

/-- A corpus of two files with the same content, and no other files. -/
def twice (content : Bytes) : Corpus :=
  .ofFiles [content, content]

def noFiles : FileTree :=
  ⟨.folder [], []⟩

theorem mem_files_twice {content : Bytes} {file : OpenedFile}
    (member : file ∈ (twice content).files noFiles.view) : file.stream = .ofBytes content := by
  rcases List.mem_cons.1 member with rfl | member
  · rfl
  · rw [List.mem_singleton.1 member]

theorem few_twice (content : Bytes) :
    ((twice content).files noFiles.view).length < 2 ^ 32 := by
  have two : ((twice content).files noFiles.view).length = 2 := rfl
  rw [two]
  decide

theorem intact_twice (content : Bytes) :
    ∀ file ∈ (twice content).files noFiles.view, ¬ file.Breaks := by
  intro file member breaks
  rw [OpenedFile.Breaks, mem_files_twice member, Stream.ending_ofBytes] at breaks
  cases breaks

/-- What is met in two files with the same content is a part of it. -/
theorem infix_of_frequency_pos {content gram : Bytes}
    (met : 0 < frequency fourBytes (twice content) noFiles gram) : gram <:+: content := by
  rcases List.countP_pos_iff.1 met with ⟨file, member, found⟩
  have inside := of_decide_eq_true found
  rwa [mem_files_twice member, Stream.delivered_ofBytes] at inside

-- Censuses of two such files run where all memory can be had.
attribute [local instance] Memory.whole

/-- Of two files with one n-gram of three bytes, this n-gram is kept. -/
theorem leaves_twice {content gram : Bytes} (width : gram.length = 3)
    (only : ∀ window ∈ Bytes.windows 3 content, window = gram)
    (met : frequency fourBytes (twice content) noFiles gram = 2) :
    ∃ kept, leaves fourBytes (twice content) schedules noFiles 0 = .ok (noFiles, kept) ∧
      kept.width = 3 ∧ kept.entries = [⟨gram, 2⟩] := by
  have memory : Pass.HasMemory fourBytes .trigrams := ⟨by decide, by decide, by decide⟩
  have readable : Pass.Readable fourBytes .trigrams ((twice content).files noFiles.view) :=
    Pass.readable_of_hasRoom (by decide) (by decide)
  have alone : ∀ other, other.length = 3 →
      2 ≤ frequency fourBytes (twice content) noFiles other → other = gram := by
    intro other length_eq repeats
    have inside := infix_of_frequency_pos (Nat.lt_of_lt_of_le Nat.two_pos repeats)
    exact only other ((Bytes.mem_windows_iff (by decide)).2 ⟨length_eq, inside⟩)
  have one : fourBytes.quota 3 = 1 := by decide
  rcases @leaves_zero_of_only fourBytes (twice content) schedules noFiles _ rfl rfl
    (few_twice content) memory
    readable (intact_twice content) one gram width (Nat.le_of_eq met.symm) alone with
    ⟨kept, reached, kept_width, entries⟩
  rw [met] at entries
  exact ⟨kept, reached, kept_width, entries⟩

/-- There is memory for a census of two files with one n-gram of three bytes. -/
theorem hasRoom_twice {content gram : Bytes} {stems : GramTable}
    (left : leaves fourBytes (twice content) schedules noFiles 0 = .ok (noFiles, stems))
    (width : stems.width = 3) (entries : stems.entries = [⟨gram, 2⟩])
    (fits : ∃ trie, (RankTrie.build stems).2 = .ok trie) :
    HasRoom fourBytes (twice content) schedules noFiles where
  results := rfl
  memory := ⟨by decide, by decide, by decide⟩
  readable := Pass.readable_of_hasRoom (by decide) (by decide)
  extendable := by
    intro i after kept inside reached
    obtain rfl : i = 0 := by
      have four : i + 3 < 4 := inside
      omega
    rw [left] at reached
    cases reached
    constructor
    · intro trie building
      have built := RankTrie.built_of_buildWith (Prod.ext rfl building)
      -- One stem takes the slots of 256 extensions.
      have one : trie.stemCount = 1 := by
        rw [built.spans.stemCount_eq, List.length_map, built.perm.length_eq, entries]
        rfl
      refine ⟨?_, ?_, by decide⟩
      · simp only [Tally.words, Tally.zero, Space.slots, one]
        decide
      · simp only [Tally.words, Tally.zero, Space.slots, one]
        decide
    · intro trie building
      have built := RankTrie.built_of_buildWith (Prod.ext rfl building)
      have length_eq : (Space.extensions trie).gramLength = 4 := by
        rw [Space.gramLength, built.stemLength_eq, width]
      refine Pass.readable_of_hasRoom ?_ ?_
      · rw [length_eq]
        decide
      · rw [length_eq]
        decide
    · intro nodes slots large
      rcases fits with ⟨trie, building⟩
      rw [building] at large
      cases large

/-- Where the only n-gram of three bytes goes on in both files, the census succeeds. -/
theorem run_twice_eq_ok {content gram : Bytes} {stems : GramTable} {byte : UInt8}
    (left : leaves fourBytes (twice content) schedules noFiles 0 = .ok (noFiles, stems))
    (entries : stems.entries = [⟨gram, 2⟩])
    (room : HasRoom fourBytes (twice content) schedules noFiles)
    (extends_ : frequency fourBytes (twice content) noFiles (gram ++ [byte]) ≠ 0) :
    ∃ results, (run fourBytes (twice content) schedules noFiles).2 = .ok results := by
  cases ran : (run fourBytes (twice content) schedules noFiles).2 with
  | ok results => exact ⟨results, rfl⟩
  | error failure =>
    rcases (run_eq_error_iff_stalls rfl rfl (few_twice content) room (intact_twice content)).1 ran
      with ⟨i, after, kept, inside, reached, stalls⟩
    obtain rfl : i = 0 := by
      have four : i + 3 < 4 := inside
      omega
    rw [left] at reached
    cases reached
    -- Neither reason to stall is given: there is a stem, and it goes on.
    cases stalls with
    | noStems none =>
      rw [entries] at none
      cases none
    | unseenStem member unextended _ =>
      rw [entries] at member
      rw [List.mem_singleton.1 member] at unextended
      exact absurd (unextended byte) extends_

/-! ## All ways to fail -/

end Census

end GramCensus
