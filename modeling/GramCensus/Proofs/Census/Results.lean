import GramCensus.Proofs.Census.Failures

/-!
# The results of a census

What a census finds is determined by its files: every pass selects the most frequent of its
candidates, and the candidates of a pass are the extensions of what the pass before it selected, in
rank order (`Census.run_chosen`).
-/

namespace GramCensus

namespace Census

variable {settings : Settings} {corpus : Corpus} {schedules : Schedules} {tree : FileTree}

/-- Two results with one n-gram each are chosen where no other is met twice. -/
theorem chosen_pair {content : Bytes} {first second : PassResult} {gram : Bytes} {byte : UInt8}
    (width : gram.length = 3) (first_length : first.length = 3) (second_length : second.length = 4)
    (first_entries : first.selected.entries = [⟨gram, 2⟩])
    (second_entries : second.selected.entries = [⟨gram ++ [byte], 2⟩])
    (only : ∀ window ∈ Bytes.windows 3 content, window = gram)
    (onlyLonger : ∀ window ∈ Bytes.windows 4 content, window = gram ++ [byte])
    (met : frequency fourBytes (twice content) noFiles gram = 2)
    (metLonger : frequency fourBytes (twice content) noFiles (gram ++ [byte]) = 2) :
    Chosen (frequency fourBytes (twice content) noFiles) fourBytes.quota 3 Space.allTrigrams
      [first, second] := by
  -- What is met twice is met, and so it is a window of the content.
  have inside : ∀ length > 0, ∀ other : Bytes, other.length = length →
      2 ≤ frequency fourBytes (twice content) noFiles other →
      other ∈ Bytes.windows length content := by
    intro length positive other length_eq repeats
    refine (Bytes.mem_windows_iff positive).2 ⟨length_eq, ?_⟩
    exact infix_of_frequency_pos (Nat.lt_of_lt_of_le Nat.two_pos repeats)
  have ranks : first.selected.Ranks [gram] := by
    refine ⟨?_, List.pairwise_singleton _ _⟩
    rw [first_entries]
    exact .refl _
  refine .more first_length ?_ ranks (.last second_length ?_)
  · have one : fourBytes.quota 3 = 1 := by decide
    rw [one]
    apply selects_single first_entries met.symm (Space.mem_allTrigrams.2 width)
      (Nat.le_of_eq met.symm)
    intro other listed repeats
    exact only other (inside 3 (by decide) other (Space.mem_allTrigrams.1 listed) repeats)
  · have one : fourBytes.quota 4 = 1 := by decide
    rw [one]
    apply selects_single second_entries metLonger.symm
      (mem_extended.2 ⟨gram, List.mem_singleton_self _, byte, rfl⟩) (Nat.le_of_eq metLonger.symm)
    intro other listed repeats
    rcases mem_extended.1 listed with ⟨stem, member, last, rfl⟩
    rw [List.mem_singleton.1 member] at repeats ⊢
    apply onlyLonger _ (inside 4 (by decide) _ _ repeats)
    rw [List.length_append, width, List.length_singleton]

-- Two files of equal bytes are counted where all memory can be had.
attribute [local instance] Memory.whole

/-- A census of two files of four equal bytes succeeds, and its passes find the same files. -/
theorem run_twice_of_equal_bytes :
    SameFiles fourBytes (twice [97, 97, 97, 97]) (fun _ => []) noFiles ∧
      ∃ results, (run fourBytes (twice [97, 97, 97, 97]) (fun _ => []) noFiles).2 = .ok results := by
  have only : ∀ window ∈ Bytes.windows 3 [97, 97, 97, 97], window = [97, 97, 97] := by decide
  rcases @leaves_twice (fun _ => []) [97, 97, 97, 97] [97, 97, 97] rfl only (by decide) with
    ⟨⟨width, entries, uniform⟩, left, width_eq, entries_eq⟩
  dsimp only at width_eq entries_eq
  subst width_eq entries_eq
  have fits : ∃ trie, (RankTrie.build ⟨3, [⟨[97, 97, 97], 2⟩], by simp⟩).2 = .ok trie := ⟨_, rfl⟩
  have room : HasRoom fourBytes (twice [97, 97, 97, 97]) (fun _ => []) noFiles :=
    hasRoom_twice left rfl rfl fits
  constructor
  · intro i after kept inside reached
    rcases leaves_eq_ok rfl rfl (few_twice _) room (intact_twice _) (Nat.le_of_lt inside) reached
      with ⟨rfl, -⟩
    rfl
  · exact @run_twice_eq_ok (fun _ => []) [97, 97, 97, 97] [97, 97, 97] _ 97 left rfl room (by decide)

/-- A census that succeeds has one result for every length from three on. The first is the selection
from all n-grams of three bytes, each later one the selection from the extensions of the one before
in rank order. No other results are chosen in this way. -/
theorem run_chosen [Memory] (few : (corpus.files tree.view).length < 2 ^ 32)
    (same : SameFiles settings corpus schedules tree) {results : List PassResult}
    (ran : (run settings corpus schedules tree).2 = .ok results) :
    results.length = settings.gramLength - 2 ∧
      Chosen (frequency settings corpus tree) settings.quota 3 Space.allTrigrams results ∧
      ∀ others, others.length = results.length →
        Chosen (frequency settings corpus tree) settings.quota 3 Space.allTrigrams others →
        others.map (·.selected.entries) = results.map (·.selected.entries) := by
  rcases chosen_of_run few same ran with ⟨-, length_results, chosen⟩
  refine ⟨length_results, chosen, ?_⟩
  intro others length_others again
  exact again.unique chosen length_others Space.Made.trigrams.nodup_grams

/-- In two files of four equal bytes both passes find one n-gram. -/
theorem run_chosen_of_equal_bytes :
    ∃ results, (run fourBytes (twice [97, 97, 97, 97]) (fun _ => []) noFiles).2 = .ok results ∧
      results.map (·.selected.entries) = [[⟨[97, 97, 97], 2⟩], [⟨[97, 97, 97, 97], 2⟩]] := by
  rcases run_twice_of_equal_bytes with ⟨same, results, ran⟩
  have chosen := @run_chosen fourBytes (twice [97, 97, 97, 97]) (fun _ => []) noFiles _
    (few_twice _) same results ran
  let totals : PassTotals := ⟨0, 0, 0, 0, 0, 0, 0⟩
  let first : PassResult := ⟨3, ⟨3, [⟨[97, 97, 97], 2⟩], by simp⟩, totals, none⟩
  let second : PassResult := ⟨4, ⟨4, [⟨[97, 97, 97, 97], 2⟩], by simp⟩, totals, none⟩
  refine ⟨results, ran, ?_⟩
  rw [← chosen.2.2 [first, second] chosen.1.symm]
  · rfl
  · exact @chosen_pair [97, 97, 97, 97] first second [97, 97, 97] 97 rfl rfl rfl rfl rfl (by decide)
      (by decide) (by decide) (by decide)

end Census

end GramCensus
