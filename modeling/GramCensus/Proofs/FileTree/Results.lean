import GramCensus.Proofs.FileTree.Writing

/-!
# Results in a folder

All results of one stem are entries of one folder, under names of their own. Where none of them
stood (`FileTree.Clear`), those that are written are there with what was written, and no others
(`FileTree.Holds`).
-/

namespace GramCensus

open FileNode

namespace FileTree

/-- The folder of a stem is there, and no results of the stem are in it. -/
def Clear (tree : FileTree) (stem : Path) : Prop :=
  ∃ folder entries,
    resolve tree.root mostLinks (startOf tree.here stem) (parts stem).dropLast = .ok folder ∧
      tree.root.node? folder = some (.folder entries) ∧
      ∀ length, entries.lookup (resultName stem length) = none

/-- Of the results of a stem, those with a text are files with this text in a folder, and the others
are not there. -/
structure Holds (tree : FileTree) (stem : Path) (folder : List Name) (texts : Nat → Option Bytes) :
    Prop where
  reaches : ∃ links ≤ mostLinks,
    Reaches tree.root links (startOf tree.here stem) (parts stem).dropLast folder
  isFolder : ∃ names, tree.root.outlineAt folder = some (.folder names)
  held : ∀ length data, texts length = some data →
    tree.root.outlineAt (folder ++ [resultName stem length]) = some (.file data) ∧
      checkPath (resultPath stem length) = .ok () ∧ ProperName (resultName stem length)
  free : ∀ length, texts length = none →
    tree.root.outlineAt (folder ++ [resultName stem length]) = none

theorem Clear.holds {tree : FileTree} {stem : Path} (clear : tree.Clear stem) :
    ∃ folder, tree.Holds stem folder fun _ => none := by
  rcases clear with ⟨folder, entries, resolved, found, none⟩
  refine ⟨folder, resolve_eq_ok_iff.1 resolved, ⟨_, by rw [outlineAt, found]; rfl⟩,
    (fun length data written => by cases written), fun length _ => ?_⟩
  rw [outlineAt, node?_snoc found, none]
  rfl

/-- The name of results says more than where it is. -/
theorem entryName_resultName (stem : Path) (length : Nat) :
    EntryName (resultName stem length) := by
  have long : 2 < (resultName stem length).length := by
    rw [resultName, resultPath, List.length_append, List.length_cons, List.length_append]
    have suffix : ".txt".toList.length = 4 := rfl
    omega
  refine ⟨?_, ?_, ?_⟩ <;>
  · intro same
    rw [same] at long
    exact absurd long (by decide)

namespace Holds

variable {tree after : FileTree} {stem : Path} {folder : List Name} {texts : Nat → Option Bytes}
  {length : Nat} {data : Bytes}

theorem startOf_resultPath (tree : FileTree) (stem : Path) (length : Nat) :
    startOf tree.here (resultPath stem length) = startOf tree.here stem := by
  rw [startOf, startOf, isAbsolute_resultPath]

/-- Results that were written are found. -/
theorem find_held (holds : tree.Holds stem folder texts) (written : texts length = some data) :
    tree.find (resultPath stem length) = .ok (.file data) := by
  rcases holds.held length data written with ⟨file, checked, proper⟩
  rcases holds.reaches with ⟨links, few, reaches⟩
  have leads : lead tree.root folder (resultName stem length) =
      .ok (.place (folder ++ [resultName stem length])) :=
    lead_eq_ok_iff.2 ⟨holds.isFolder, .inr (.inr ⟨proper, _, file, rfl⟩)⟩
  have located : tree.locate (resultPath stem length) =
      .ok (folder ++ [resultName stem length]) := by
    refine locate_eq_ok_iff.2 ⟨checked, links, few, ?_⟩
    rw [startOf_resultPath, parts_resultPath]
    exact reaches.append (.step leads .here)
  rw [find, located]
  simp only [bind, Except.bind, node?_of_outlineAt_file file]

/-- Nothing is found where no results were written. -/
theorem find_free (holds : tree.Holds stem folder texts) (unwritten : texts length = none)
    (node : FileNode) : tree.find (resultPath stem length) ≠ .ok node := by
  intro found
  rw [find] at found
  cases located : tree.locate (resultPath stem length) with
  | error cause =>
    rw [located] at found
    cases found
  | ok place =>
    rcases locate_eq_ok_iff.1 located with ⟨-, links, -, reaches⟩
    rcases holds.reaches with ⟨others, -, above⟩
    rw [startOf_resultPath, parts_resultPath] at reaches
    rcases reaches.split with ⟨_, _, point, -, first, last⟩
    obtain rfl := first.unique above
    have nowhere := lead_ne_ok_of_free (entryName_resultName stem length)
      (holds.free length unwritten)
    cases last with
    | step leads => exact nowhere _ leads
    | link leads => exact nowhere _ leads

/-- Writing results adds them to those that are there. -/
theorem write (holds : tree.Holds stem folder texts) (unwritten : texts length = none)
    (written : tree.write (resultPath stem length) data = .ok after) :
    after.Holds stem folder fun other => if other = length then some data else texts other := by
  rcases holds.reaches with ⟨links, few, reaches⟩
  rcases holds.isFolder with ⟨names, isFolder⟩
  have free := holds.free length unwritten
  have there : tree.root.outlineAt (startOf tree.here (resultPath stem length)) ≠ none := by
    rw [startOf_resultPath]
    exact reaches.outlineAt_start (by rw [isFolder]; exact Option.some_ne_none _)
  -- Whatever the place is that is written to, it is the one of the name in the folder.
  have same : ∀ {links : Nat} {place : List Name}, Targets tree.root links
      (startOf tree.here (resultPath stem length)) (parts (resultPath stem length)) place →
        place = folder ++ [resultName stem length] := by
    intro links place targets
    rw [startOf_resultPath, parts_resultPath] at targets
    rcases targets.split with ⟨_, _, point, -, first, last⟩
    obtain rfl := first.unique reaches
    exact last.eq_of_free (entryName_resultName stem length) free
  rcases wrote_of_write there written with
    ⟨-, _, place, kind, targets, device⟩ | ⟨base, name, wrote⟩
  · rw [same targets, free] at device
    cases device
  · rcases wrote.targets with ⟨_, -, targets⟩
    obtain ⟨rfl, only⟩ := List.append_inj' (same targets) rfl
    obtain rfl := List.singleton_inj.1 only
    refine ⟨⟨links, few, ?_⟩, wrote.puts.isFolder_after isFolder, ?_, ?_⟩
    · rw [wrote.here_eq]
      exact wrote.puts.reaches_after reaches
    · intro other text shown
      split at shown
      case isTrue own =>
        subst own
        cases shown
        exact ⟨wrote.puts.placed, wrote.checked, wrote.proper⟩
      case isFalse different =>
        rcases holds.held other text shown with ⟨file, checked, proper⟩
        refine ⟨?_, checked, proper⟩
        rw [wrote.puts.others _ (by simp) fun equal => different ?_]
        · exact file
        · exact resultName_injective stem (List.singleton_inj.1 (List.append_cancel_left equal))
    · intro other shown
      split at shown
      case isTrue => cases shown
      case isFalse different =>
        rw [wrote.puts.others _ (by simp) fun equal => different ?_]
        · exact holds.free other shown
        · exact resultName_injective stem (List.singleton_inj.1 (List.append_cancel_left equal))

end Holds

end FileTree

end GramCensus
