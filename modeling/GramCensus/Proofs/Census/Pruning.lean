import GramCensus.Proofs.Census.Results

/-!
# What pruning loses

A census looks for longer n-grams behind those it has kept only, so it may lose some. What it loses
is dominated: the pass that lost the start of an n-gram has kept as many others as it may keep, and
every one of them is at least as frequent (`Chosen.loses`). The reason is that an n-gram is not
more frequent than its start.
-/

namespace GramCensus

/-- A pass has lost the start of an n-gram to as many others as it keeps, all of them at least as
frequent. -/
structure PassResult.Loses (result : PassResult) (frequency : Bytes → Nat) (quota : Nat → Nat)
    (gram : Bytes) : Prop where
  out : gram.take result.length ∉ result.selected.entries.map (·.gram)
  full : result.selected.size = quota result.length
  outdone : ∀ e ∈ result.selected.entries,
    frequency (gram.take result.length) ≤ e.count.toNat

/-- A table holds the `k` most frequent of all n-grams of a length that were met twice. -/
structure GramTable.IsTop (table : GramTable) (frequency : Bytes → Nat) (k length : Nat) :
    Prop where
  distinct : (table.entries.map (·.gram)).Nodup
  size_le : table.size ≤ k
  counted : ∀ e ∈ table.entries,
    e.gram.length = length ∧ 2 ≤ frequency e.gram ∧ e.count.toNat = frequency e.gram
  complete : ∀ gram, gram.length = length → 2 ≤ frequency gram →
    gram ∉ table.entries.map (·.gram) →
      table.size = k ∧ ∀ e ∈ table.entries, frequency gram ≤ e.count.toNat

namespace Chosen

variable {frequency : Bytes → Nat} {quota : Nat → Nat} {length : Nat} {candidates : List Bytes}
  {results : List PassResult} {final : PassResult} {gram : Bytes}

theorem ne_nil (chosen : Chosen frequency quota length candidates results) : results ≠ [] := by
  cases chosen with
  | last _ _ => exact List.cons_ne_nil _ _
  | more _ _ _ _ => exact List.cons_ne_nil _ _

/-- A candidate that is not kept is lost to others. -/
theorem loses_of_not_mem {result : PassResult}
    (selects : result.selected.Selects frequency (quota result.length) candidates)
    (candidate : gram.take result.length ∈ candidates)
    (twice : 2 ≤ frequency (gram.take result.length))
    (out : gram.take result.length ∉ result.selected.entries.map (·.gram)) :
    result.Loses frequency quota gram := by
  rcases selects.selection.full_of_not_mem candidate twice out with ⟨full, outdone⟩
  rw [List.length_map] at full
  refine ⟨out, full, ?_⟩
  intro e member
  rw [selects.counted e member]
  exact outdone e.gram (List.mem_map_of_mem member)

/-- An n-gram that the last pass does not keep was lost by some pass. -/
theorem loses (chosen : Chosen frequency quota length candidates results)
    (starts : ∀ length, frequency gram ≤ frequency (gram.take length)) (twice : 2 ≤ frequency gram)
    (width : gram.length + 1 = length + results.length) (candidate : gram.take length ∈ candidates)
    (last : results.getLast? = some final)
    (out : gram ∉ final.selected.entries.map (·.gram)) :
    ∃ result ∈ results, result.Loses frequency quota gram ∧
      (result = final ∨ result.length < gram.length) := by
  induction chosen with
  | @last length candidates result length_eq selects =>
    -- The whole n-gram was a candidate of the last pass.
    obtain rfl : result = final := Option.some.inj last
    subst length_eq
    have whole : gram.take result.length = gram := List.take_of_length_le (by
      rw [List.length_singleton] at width
      omega)
    refine ⟨result, List.mem_singleton_self _, ?_, .inl rfl⟩
    rw [← whole] at out twice
    exact loses_of_not_mem selects candidate twice out
  | @more length candidates stems result later length_eq selects ranks rest ih =>
    subst length_eq
    have positive : 0 < later.length := List.length_pos_of_ne_nil rest.ne_nil
    have longer : result.length < gram.length := by
      rw [List.length_cons] at width
      omega
    by_cases kept : gram.take result.length ∈ result.selected.entries.map (·.gram)
    · -- The start was kept, so the longer start is a candidate of the next pass.
      have next : gram.take (result.length + 1) ∈ extended stems := by
        rw [mem_extended]
        refine ⟨gram.take result.length, ranks.perm.mem_iff.2 kept, gram[result.length], ?_⟩
        exact List.take_concat_get' _ _ longer
      have behind : later.getLast? = some final := by
        rw [List.getLast?_cons_of_ne_nil rest.ne_nil] at last
        exact last
      rcases ih (by rw [List.length_cons] at width; omega) next behind with
        ⟨loser, member, lost⟩
      exact ⟨loser, List.mem_cons_of_mem _ member, lost⟩
    · refine ⟨result, List.mem_cons_self, ?_, .inr longer⟩
      exact loses_of_not_mem selects candidate (Nat.le_trans twice (starts _)) kept

/-- Every pass selects from candidates of its own length, none of them twice. -/
theorem selects_of_mem (chosen : Chosen frequency quota length candidates results)
    (distinct : candidates.Nodup) (uniform : ∀ gram ∈ candidates, gram.length = length)
    {result : PassResult} (member : result ∈ results) :
    length ≤ result.length ∧ ∃ own : List Bytes, own.Nodup ∧
      (∀ gram ∈ own, gram.length = result.length) ∧
      result.selected.Selects frequency (quota result.length) own := by
  induction chosen with
  | @last length candidates only length_eq selects =>
    obtain rfl := List.mem_singleton.1 member
    subst length_eq
    exact ⟨Nat.le_refl _, candidates, distinct, uniform, selects⟩
  | @more length candidates stems first later length_eq selects ranks rest ih =>
    subst length_eq
    rcases List.mem_cons.1 member with rfl | behind
    · exact ⟨Nat.le_refl _, candidates, distinct, uniform, selects⟩
    · have stemsDistinct : stems.Nodup := ranks.perm.nodup_iff.2 (selects.nodup distinct)
      have wider : ∀ gram ∈ extended stems, gram.length = first.length + 1 := by
        intro gram listed
        rcases mem_extended.1 listed with ⟨stem, member, byte, rfl⟩
        have candidate := selects.selection.sublist.subset (ranks.perm.mem_iff.1 member)
        rw [List.length_append, uniform stem candidate, List.length_singleton]
      rcases ih (nodup_extended stemsDistinct) wider behind with ⟨longer, own⟩
      exact ⟨Nat.le_of_succ_le longer, own⟩

theorem length_getLast? (chosen : Chosen frequency quota length candidates results)
    (last : results.getLast? = some final) : final.length + 1 = length + results.length := by
  induction chosen with
  | @last length _ result length_eq _ =>
    obtain rfl : result = final := Option.some.inj last
    rw [length_eq]
    rfl
  | @more length _ _ _ later _ _ _ rest ih =>
    rw [List.getLast?_cons_of_ne_nil rest.ne_nil] at last
    rw [ih last, List.length_cons]
    omega

/-- The lost start of an n-gram and what was kept in its place are more than the pass may keep. -/
theorem exists_more_than_quota (chosen : Chosen frequency quota length candidates results)
    (distinct : candidates.Nodup) (uniform : ∀ gram ∈ candidates, gram.length = length)
    {result : PassResult} (member : result ∈ results) (loses : result.Loses frequency quota gram)
    (twice : 2 ≤ frequency (gram.take result.length)) (longer : result.length ≤ gram.length) :
    length ≤ result.length ∧ ∃ grams : List Bytes, grams.Nodup ∧
      (∀ other ∈ grams, other.length = result.length ∧ 2 ≤ frequency other) ∧
        quota result.length < grams.length := by
  rcases chosen.selects_of_mem distinct uniform member with
    ⟨atLeast, own, ownDistinct, width, selects⟩
  refine ⟨atLeast, gram.take result.length :: result.selected.entries.map (·.gram), ?_, ?_, ?_⟩
  · exact List.nodup_cons.2 ⟨loses.out, selects.nodup ownDistinct⟩
  · intro other listed
    rcases List.mem_cons.1 listed with rfl | kept
    · exact ⟨List.length_take_of_le longer, twice⟩
    · exact ⟨width other (selects.selection.sublist.subset kept),
        selects.selection.repeated other kept⟩
  · have full := loses.full
    rw [GramTable.size] at full
    rw [List.length_cons, List.length_map, full]
    exact Nat.lt_succ_self _

/-- If no pass before the last one meets more n-grams twice than it keeps, the last one keeps the most
frequent of all. -/
theorem isTop (chosen : Chosen frequency quota length candidates results)
    (distinct : candidates.Nodup) (mem_candidates : ∀ gram, gram ∈ candidates ↔ gram.length = length)
    (starts : ∀ gram length, frequency gram ≤ frequency (List.take length gram))
    (last : results.getLast? = some final)
    (enough : ∀ middle, length ≤ middle → middle < final.length → ∀ grams : List Bytes,
      grams.Nodup → (∀ gram ∈ grams, gram.length = middle ∧ 2 ≤ frequency gram) →
        grams.length ≤ quota middle) :
    final.selected.IsTop frequency (quota final.length) final.length := by
  have uniform : ∀ gram ∈ candidates, gram.length = length := fun gram => (mem_candidates gram).1
  have final_length := chosen.length_getLast? last
  have positive := List.length_pos_of_ne_nil chosen.ne_nil
  rcases chosen.selects_of_mem distinct uniform (List.mem_of_getLast? last) with
    ⟨-, own, ownDistinct, width, selects⟩
  refine ⟨selects.nodup ownDistinct, ?_, ?_, ?_⟩
  · have length_eq := selects.selection.length_eq
    rw [List.length_map] at length_eq
    rw [GramTable.size, length_eq]
    exact Nat.min_le_left _ _
  · intro e member
    have listed : e.gram ∈ final.selected.entries.map (·.gram) := List.mem_map.2 ⟨e, member, rfl⟩
    refine ⟨width e.gram (selects.selection.sublist.subset listed), ?_, selects.counted e member⟩
    exact selects.selection.repeated e.gram listed
  · intro gram length_eq twice out
    have candidate : gram.take length ∈ candidates := by
      rw [mem_candidates, List.length_take]
      omega
    rcases chosen.loses (starts gram) twice (by omega) candidate last out with
      ⟨result, member, loses, rfl | shorter⟩
    · refine ⟨loses.full, ?_⟩
      intro e taken
      calc
        frequency gram ≤ frequency (gram.take result.length) := starts gram _
        _ ≤ e.count.toNat := loses.outdone e taken
    · rcases chosen.exists_more_than_quota distinct uniform member loses
        (Nat.le_trans twice (starts gram _)) (Nat.le_of_lt shorter) with
        ⟨atLeast, grams, different, met, more⟩
      have few := enough result.length atLeast (by omega) grams different met
      exact absurd few (Nat.not_le.2 more)

end Chosen

namespace Census

variable {settings : Settings} {corpus : Corpus} {schedules : Schedules} {tree : FileTree}

/-- An n-gram is not more frequent than its start. -/
theorem frequency_le_take (gram : Bytes) (length : Nat) :
    frequency settings corpus tree gram ≤ frequency settings corpus tree (gram.take length) :=
  spread_le (List.take_prefix length gram).isInfix

/-- An n-gram that was met twice and is not among the final results is dominated, at its own length
or at the length of its start, by as many others as were kept there. So where no pass before the
last one meets more n-grams twice than it keeps, the final results are the most frequent of all. -/
theorem run_prunes [Memory] (few : (corpus.files tree.view).length < 2 ^ 32)
    (same : SameFiles settings corpus schedules tree) {results : List PassResult}
    (ran : (run settings corpus schedules tree).2 = .ok results) :
    ∃ final, results.getLast? = some final ∧
      (∀ gram, gram.length = settings.gramLength → 2 ≤ frequency settings corpus tree gram →
        gram ∉ final.selected.entries.map (·.gram) →
          (final.selected.size = settings.limit ∧
            ∀ e ∈ final.selected.entries, frequency settings corpus tree gram ≤ e.count.toNat) ∨
          ∃ result ∈ results, 3 ≤ result.length ∧ result.length < settings.gramLength ∧
            result.selected.size = settings.quota result.length ∧
            (∀ e ∈ result.selected.entries,
              frequency settings corpus tree (gram.take result.length) ≤ e.count.toNat) ∧
            frequency settings corpus tree gram ≤
              frequency settings corpus tree (gram.take result.length)) ∧
      ((∀ length, 3 ≤ length → length < settings.gramLength → ∀ grams : List Bytes, grams.Nodup →
          (∀ gram ∈ grams, gram.length = length ∧ 2 ≤ frequency settings corpus tree gram) →
            grams.length ≤ settings.quota length) →
        final.selected.IsTop (frequency settings corpus tree) settings.limit
          settings.gramLength) := by
  rcases chosen_of_run few same ran with ⟨long, length_results, chosen⟩
  rcases List.getLast?_isSome.2 chosen.ne_nil |> Option.isSome_iff_exists.1 with ⟨final, last⟩
  have final_length : final.length = settings.gramLength := by
    have length_eq := chosen.length_getLast? last
    omega
  have quota_eq : settings.quota final.length = settings.limit := by
    rw [Settings.quota, if_pos (Nat.le_of_eq final_length.symm)]
  have uniform : ∀ gram ∈ Space.allTrigrams, gram.length = 3 := fun _ => Space.mem_allTrigrams.1
  refine ⟨final, last, ?_, ?_⟩
  · intro gram width twice out
    have candidate : gram.take 3 ∈ Space.allTrigrams := by
      rw [Space.mem_allTrigrams, List.length_take]
      omega
    -- Some pass has lost the start of the n-gram, the last one or one before it.
    rcases chosen.loses (frequency_le_take gram) twice (by omega) candidate last out with
      ⟨result, member, loses, rfl | shorter⟩
    · left
      refine ⟨loses.full.trans quota_eq, ?_⟩
      intro e taken
      calc
        frequency settings corpus tree gram
            ≤ frequency settings corpus tree (gram.take result.length) := frequency_le_take gram _
        _ ≤ e.count.toNat := loses.outdone e taken
    · right
      have selected := chosen.selects_of_mem Space.Made.trigrams.nodup_grams uniform member
      exact ⟨result, member, selected.1, by omega, loses.full, loses.outdone,
        frequency_le_take gram _⟩
  · intro enough
    rw [← quota_eq, ← final_length]
    rw [← final_length] at enough
    exact chosen.isTop Space.Made.trigrams.nodup_grams (fun _ => Space.mem_allTrigrams)
      frequency_le_take last enough

-- What follows runs where all memory can be had.
attribute [local instance] Memory.whole

/-- In two files of four equal bytes one n-gram of three bytes is met twice, and one may be kept. -/
theorem run_prunes_of_equal_bytes :
    ∃ results final, (run fourBytes (twice [97, 97, 97, 97]) (fun _ => []) noFiles).2 = .ok results ∧
      results.getLast? = some final ∧
        final.selected.IsTop (frequency fourBytes (twice [97, 97, 97, 97]) noFiles) 1 4 := by
  rcases run_twice_of_equal_bytes with ⟨same, results, ran⟩
  rcases @run_prunes fourBytes (twice [97, 97, 97, 97]) (fun _ => []) noFiles _ (few_twice _) same
    results ran with ⟨final, last, -, top⟩
  refine ⟨results, final, ran, last, top ?_⟩
  intro length atLeast below grams distinct met
  obtain rfl : length = 3 := Nat.le_antisymm (Nat.le_of_lt_succ below) atLeast
  have only : ∀ window ∈ Bytes.windows 3 [97, 97, 97, 97], window = [97, 97, 97] := by decide
  have inside : grams ⊆ [[97, 97, 97]] := by
    intro gram listed
    rcases met gram listed with ⟨width, repeats⟩
    have part := infix_of_frequency_pos (Nat.lt_of_lt_of_le Nat.two_pos repeats)
    rw [only gram ((Bytes.mem_windows_iff (by decide)).2 ⟨width, part⟩)]
    exact List.mem_singleton_self _
  have one : fourBytes.quota 3 = 1 := by decide
  rw [one]
  exact (List.subperm_of_subset distinct inside).length_le

end Census

end GramCensus
