import GramCensus.Proofs.FileTree.Writing

/-!
# Walks over a tree that was written to

A walk sees a tree through the outlines of the places that its paths lead to (`FileTree.view_eq`).
Where a file was written, a walk finds what it found before, unless it finds that file
(`Wrote.files_eq`).
-/

namespace GramCensus

open FileNode

/-! ## Sorted names -/

theorem pairwise_sortNames (names : List Name) :
    (sortNames names).Pairwise fun a b => b.lex a = false := by
  have sorted := @List.pairwise_mergeSort _ (fun a b : Name => !b.lex a) ?trans ?total names
  · rw [← stableSort_eq_mergeSort] at sorted
    refine sorted.imp fun {a b} ordered => ?_
    rwa [Bool.not_eq_true'] at ordered
  case trans =>
    intro a b c
    simp only [Bool.not_eq_true', List.lex_eq_false_iff_ge]
    exact List.le_trans
  case total =>
    intro a b
    simp only [Bool.or_eq_true, Bool.not_eq_true', List.lex_eq_false_iff_ge]
    exact List.le_total a b

private theorem flatMap_filter_ne {α β : Type} [DecidableEq α] {f : α → List β} {x : α}
    (empty : f x = []) (xs : List α) : (xs.filter (· ≠ x)).flatMap f = xs.flatMap f := by
  induction xs with
  | nil => rfl
  | cons y rest ih =>
    by_cases same : y = x
    · rw [List.filter_cons_of_neg (by simp [same]), ih, List.flatMap_cons, same, empty,
        List.nil_append]
    · rw [List.filter_cons_of_pos (by simp [same]), List.flatMap_cons, ih, List.flatMap_cons]

/-- A name more is sorted into its place among the others, so where it brings nothing it makes no
difference. -/
theorem flatMap_sortNames_including {β : Type} {f : Name → List β} {name : Name}
    (empty : f name = []) (names : List Name) :
    (sortNames (including name names)).flatMap f = (sortNames names).flatMap f := by
  rw [including]
  split
  case isTrue => rfl
  case isFalse new =>
    have others : (names ++ [name]).filter (· ≠ name) = names := by
      rw [List.filter_append, List.filter_eq_self.2 fun other member => ?_]
      · simp
      · refine decide_eq_true ?_
        rintro rfl
        exact new member
    have perm : ((sortNames (names ++ [name])).filter (· ≠ name)).Perm (sortNames names) := by
      have rearranged := (stableSort_perm (fun a b : Name => !b.lex a) (names ++ [name])).filter
        (· ≠ name)
      rw [others] at rearranged
      exact rearranged.trans (stableSort_perm _ names).symm
    have same : (sortNames (names ++ [name])).filter (· ≠ name) = sortNames names :=
      perm.eq_of_pairwise (fun _ _ _ _ before after => List.le_antisymm
          (List.lex_eq_false_iff_ge.1 before) (List.lex_eq_false_iff_ge.1 after))
        ((pairwise_sortNames _).filter _) (pairwise_sortNames _)
    rw [← flatMap_filter_ne empty, same]

namespace FileTree

variable {before after : FileTree} {path : Path} {data : Bytes} {base : List Name} {name : Name}

/-! ## What a walk sees -/

theorem view_eq (tree : FileTree) (path : Path) :
    tree.view path =
      match tree.locate path with
      | .error _ => .nothing
      | .ok place =>
        match tree.root.outlineAt place with
        | some (.file data) => .file data
        | some (.folder names) => .folder (sortNames names)
        | _ => .nothing := by
  rw [view, find]
  cases tree.locate path with
  | error cause => rfl
  | ok place =>
    simp only [bind, Except.bind, outlineAt]
    cases tree.root.node? place with
    | none => rfl
    | some node => cases node <;> rfl

theorem view_of_locate {tree : FileTree} {place : List Name}
    (located : tree.locate path = .ok place) :
    tree.view path =
      match tree.root.outlineAt place with
      | some (.file data) => .file data
      | some (.folder names) => .folder (sortNames names)
      | _ => .nothing := by
  rw [view_eq, located]

namespace Wrote

theorem view_of_locate_self (wrote : before.Wrote path data base name after) {other : Path}
    (located : after.locate other = .ok (base ++ [name])) : after.view other = .file data := by
  rw [view_of_locate located, wrote.puts.placed]

/-- A path that does not lead to the new file shows what it showed, apart from the new name in the
folder. -/
theorem view_cases (wrote : before.Wrote path data base name after) (other : Path) :
    after.locate other = .ok (base ++ [name]) ∨ after.view other = before.view other ∨
      after.locate other = .ok base ∧ ∃ names, before.view other = .folder (sortNames names) ∧
        after.view other = .folder (sortNames (including name names)) := by
  cases located : after.locate other with
  | error cause =>
    refine .inr (.inl ?_)
    cases old : before.locate other with
    | error cause' => rw [view_eq, view_eq, located, old]
    | ok place => cases (wrote.locate_after old).symm.trans located
  | ok place =>
    rcases wrote.locate_before located with rfl | old
    · exact .inl rfl
    · by_cases new : place = base ++ [name]
      · exact .inl (congrArg _ new)
      · refine .inr ?_
        by_cases own : place = base
        · subst own
          rcases wrote.puts.folder with ⟨names, folder, changed⟩
          refine .inr ⟨rfl, names, ?_, ?_⟩
          · rw [view_of_locate old, folder]
          · rw [view_of_locate located, changed]
        · rw [view_of_locate located, view_of_locate old, wrote.puts.others place own new]
          exact .inl rfl

/-- The new name in the folder leads to the new file, if anywhere. -/
theorem locate_joinPath (wrote : before.Wrote path data base name after) {folder : Path}
    {place : List Name} (located : after.locate folder = .ok base)
    (entry : after.locate (joinPath folder name) = .ok place) : place = base ++ [name] := by
  rcases locate_eq_ok_iff.1 located with ⟨checked, links, -, reaches⟩
  rcases locate_eq_ok_iff.1 entry with ⟨-, more, -, further⟩
  have written : folder ≠ [] := by
    rintro rfl
    cases checked
  rcases exists_parts_joinPath written wrote.plain with ⟨above, same, joined, absolute⟩
  have start : startOf after.here (joinPath folder name) = startOf after.here folder := by
    rw [startOf, startOf, absolute]
  -- The way to the entry goes through the folder, be there a slash behind its name or not.
  rw [start, joined] at further
  rcases further.split with ⟨_, _, middle, -, first, second⟩
  obtain rfl : middle = base := by
    rcases same with same | same
    · rw [same] at reaches
      exact first.unique reaches
    · rw [same] at reaches
      rcases reaches.of_slash with ⟨_, -, again⟩
      exact first.unique again
  rcases wrote.puts.folder with ⟨names, -, changed⟩
  have leads : lead after.root middle name = .ok (.place (middle ++ [name])) :=
    lead_eq_ok_iff.2 ⟨⟨_, changed⟩, .inr (.inr ⟨wrote.proper, _, wrote.puts.placed, rfl⟩)⟩
  exact second.unique (.step leads .here)

/-! ## What a walk finds -/

theorem visit_of_nothing {view : View} (nothing : view path = .nothing) (depth : Nat) :
    Walk.visit view depth path = [] := by
  cases depth <;> simp only [Walk.visit, nothing]

theorem visit_of_file {view : View} (file : view path = .file data) (depth : Nat) :
    Walk.visit view depth path = [⟨path, data⟩] := by
  cases depth <;> simp only [Walk.visit, file]

/-- A walk that does not find the new file finds nothing where it is. -/
theorem visit_of_locate_self (wrote : before.Wrote path data base name after) {other : Path}
    {depth : Nat}
    (apart : ∀ found ∈ Walk.visit after.view depth other,
      after.locate found.path ≠ .ok (base ++ [name])) :
    after.locate other ≠ .ok (base ++ [name]) := by
  intro located
  rw [visit_of_file (wrote.view_of_locate_self located)] at apart
  exact apart _ List.mem_cons_self located

/-- A walk finds what it found before, unless it finds the new file. -/
theorem visit_eq (wrote : before.Wrote path data base name after) {depth : Nat} {other : Path}
    (apart : ∀ found ∈ Walk.visit after.view depth other,
      after.locate found.path ≠ .ok (base ++ [name])) :
    Walk.visit after.view depth other = Walk.visit before.view depth other := by
  induction depth generalizing other with
  | zero =>
    rcases wrote.view_cases other with new | same | ⟨-, names, old, changed⟩
    · exact absurd new (wrote.visit_of_locate_self apart)
    · rw [Walk.visit, Walk.visit, same]
    · rw [Walk.visit, Walk.visit, old, changed]
  | succ depth ih =>
    rcases wrote.view_cases other with new | same | ⟨located, names, old, changed⟩
    · exact absurd new (wrote.visit_of_locate_self apart)
    · rw [Walk.visit, same] at apart
      rw [Walk.visit, Walk.visit, same]
      split
      · rfl
      · next names folder =>
        rw [folder] at apart
        apply List.flatMap_congr
        intro entry member
        exact ih fun found listed =>
          apart found (List.mem_flatMap.2 ⟨entry, member, listed⟩)
      · rfl
    · rw [Walk.visit, changed] at apart
      have apartBelow : ∀ entry ∈ including name names,
          ∀ found ∈ Walk.visit after.view depth (joinPath other entry),
            after.locate found.path ≠ .ok (base ++ [name]) := fun entry member found listed =>
        apart found (List.mem_flatMap.2 ⟨entry, mem_stableSort.2 member, listed⟩)
      -- The walk does not find the new file, so it finds nothing under the new name.
      have empty : Walk.visit after.view depth (joinPath other name) = [] := by
        cases entry : after.locate (joinPath other name) with
        | error cause => exact visit_of_nothing (by rw [view_eq, entry]) depth
        | ok place =>
          obtain rfl := wrote.locate_joinPath located entry
          exact absurd entry
            (wrote.visit_of_locate_self (apartBelow name (mem_including_self name names)))
      calc
        Walk.visit after.view (depth + 1) other
            = (sortNames (including name names)).flatMap fun entry =>
                Walk.visit after.view depth (joinPath other entry) := by
              rw [Walk.visit, changed]
        _ = (sortNames names).flatMap fun entry =>
              Walk.visit after.view depth (joinPath other entry) :=
            @flatMap_sortNames_including _
              (fun entry => Walk.visit after.view depth (joinPath other entry)) name empty names
        _ = (sortNames names).flatMap fun entry =>
              Walk.visit before.view depth (joinPath other entry) :=
            List.flatMap_congr fun entry member =>
              ih (apartBelow entry (mem_including (mem_stableSort.1 member)))
        _ = Walk.visit before.view (depth + 1) other := by rw [Walk.visit, old]

/-- The files of a walk are those of before, unless one of them is the new file. -/
theorem files_eq (wrote : before.Wrote path data base name after) {pending : List Pending}
    (apart : ∀ found ∈ Walk.files after.view pending,
      after.locate found.path ≠ after.locate path) :
    Walk.files after.view pending = Walk.files before.view pending := by
  rw [wrote.locate_self] at apart
  induction pending with
  | nil => rfl
  | cons next rest ih =>
    rw [Walk.files, List.flatMap_cons] at apart
    rw [Walk.files, Walk.files, List.flatMap_cons, List.flatMap_cons]
    have first := wrote.visit_eq fun found member =>
      apart found (List.mem_append_left _ member)
    have later := ih fun found member => apart found (List.mem_append_right _ member)
    rw [first]
    exact congrArg _ later

end Wrote

end FileTree

end GramCensus
