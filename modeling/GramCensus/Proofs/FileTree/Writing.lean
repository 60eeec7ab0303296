import GramCensus.Proofs.FileTree.Parts
import GramCensus.Proofs.FileTree.Paths

/-!
# Writing files

Writing puts one file into one folder, or gives bytes to a device (`FileTree.wrote_of_write`).
Behind it the path leads to the file, every other path leads where it led before, and none leads
anywhere that led nowhere, unless it leads to the file (`Wrote.locate_before`).
-/

namespace GramCensus

open FileTree

namespace FileNode.Puts

variable {before after : FileNode} {base place parts : List Name} {name part : Name} {data : Bytes}
  {outline : Outline} {links : Nat}

/-! ## What a new file changes -/

/-- What was there is there, perhaps with one more name or with other data. -/
theorem outlineAt_after (puts : before.Puts base name data after)
    (there : before.outlineAt place = some outline) :
    after.outlineAt place = some outline ∨
      (∃ names, outline = .folder names ∧
        after.outlineAt place = some (.folder (including name names))) ∨
      ∃ old, outline = .file old ∧ after.outlineAt place = some (.file data) := by
  by_cases own : place = base
  · subst own
    rcases puts.folder with ⟨names, old, new⟩
    rw [there] at old
    exact .inr (.inl ⟨names, Option.some.inj old, new⟩)
  · by_cases new : place = base ++ [name]
    · subst new
      rcases puts.vacant with nothing | ⟨old, held⟩
      · rw [there] at nothing
        cases nothing
      · rw [there] at held
        exact .inr (.inr ⟨old, Option.some.inj held, puts.placed⟩)
    · rw [puts.others place own new]
      exact .inl there

/-- What is there was there, apart from the new name and the new file. -/
theorem outlineAt_before (puts : before.Puts base name data after)
    (there : after.outlineAt place = some outline) :
    before.outlineAt place = some outline ∨
      (place = base ∧ ∃ names, before.outlineAt place = some (.folder names) ∧
        outline = .folder (including name names)) ∨
      place = base ++ [name] ∧ outline = .file data := by
  by_cases own : place = base
  · subst own
    rcases puts.folder with ⟨names, old, new⟩
    rw [there] at new
    exact .inr (.inl ⟨rfl, names, old, Option.some.inj new⟩)
  · by_cases new : place = base ++ [name]
    · subst new
      have placed := puts.placed
      rw [there] at placed
      exact .inr (.inr ⟨rfl, Option.some.inj placed⟩)
    · rw [puts.others place own new] at there
      exact .inl there

theorem isFolder_after (puts : before.Puts base name data after) {names : List Name}
    (folder : before.outlineAt place = some (.folder names)) :
    ∃ others, after.outlineAt place = some (.folder others) := by
  rcases puts.outlineAt_after folder with same | ⟨others, -, new⟩ | ⟨old, file, -⟩
  · exact ⟨names, same⟩
  · exact ⟨_, new⟩
  · cases file

theorem isFolder_before (puts : before.Puts base name data after) {names : List Name}
    (folder : after.outlineAt place = some (.folder names)) :
    ∃ others, before.outlineAt place = some (.folder others) := by
  rcases puts.outlineAt_before folder with same | ⟨-, others, old, -⟩ | ⟨-, file⟩
  · exact ⟨names, same⟩
  · exact ⟨others, old⟩
  · cases file

/-! ## Following paths behind it -/

/-- A part of a path that led somewhere still leads there. -/
theorem lead_after (puts : before.Puts base name data after) {next : Lead}
    (leads : lead before place part = .ok next) : lead after place part = .ok next := by
  rw [lead_eq_ok_iff] at leads ⊢
  rcases leads with ⟨⟨names, folder⟩, leads⟩
  refine ⟨puts.isFolder_after folder, ?_⟩
  rcases leads with here | up | ⟨proper, held, entry, rfl⟩
  · exact .inl here
  · exact .inr (.inl up)
  · refine .inr (.inr ⟨proper, ?_⟩)
    rcases puts.outlineAt_after entry with same | ⟨others, rfl, new⟩ | ⟨old, rfl, new⟩
    · exact ⟨held, same, rfl⟩
    · exact ⟨_, new, rfl⟩
    · exact ⟨_, new, rfl⟩

/-- A part of a path leads where it led before, unless it leads to the new file. -/
theorem lead_before (puts : before.Puts base name data after) {next : Lead}
    (leads : lead after place part = .ok next) :
    lead before place part = .ok next ∨ next = .place (base ++ [name]) := by
  rcases lead_eq_ok_iff.1 leads with ⟨⟨names, folder⟩, leads⟩
  have below := puts.isFolder_before folder
  rcases leads with here | up | ⟨proper, held, entry, rfl⟩
  · exact .inl (lead_eq_ok_iff.2 ⟨below, .inl here⟩)
  · exact .inl (lead_eq_ok_iff.2 ⟨below, .inr (.inl up)⟩)
  · rcases puts.outlineAt_before entry with same | ⟨-, others, old, rfl⟩ | ⟨new, rfl⟩
    · exact .inl (lead_eq_ok_iff.2 ⟨below, .inr (.inr ⟨proper, held, same, rfl⟩)⟩)
    · exact .inl (lead_eq_ok_iff.2 ⟨below, .inr (.inr ⟨proper, _, old, rfl⟩)⟩)
    · exact .inr (congrArg Lead.place new)

theorem reaches_after (puts : before.Puts base name data after) {start : List Name}
    (reaches : Reaches before links start parts place) : Reaches after links start parts place := by
  induction reaches with
  | here => exact .here
  | step leads reaches ih => exact .step (puts.lead_after leads) ih
  | link leads reaches ih => exact .link (puts.lead_after leads) ih

/-- Nothing is reached through the new file but the file itself. -/
theorem reaches_before (puts : before.Puts base name data after) {start : List Name}
    (reaches : Reaches after links start parts place) :
    place = base ++ [name] ∨ Reaches before links start parts place := by
  induction reaches with
  | here => exact .inr .here
  | @step links start next rest place part leads reaches ih =>
    rcases puts.lead_before leads with old | new
    · exact ih.imp id (.step old)
    · obtain rfl := Lead.place.inj new
      cases reaches with
      | here => exact .inl rfl
      | step further =>
        rcases (lead_eq_ok_iff.1 further).1 with ⟨names, folder⟩
        cases puts.placed.symm.trans folder
      | link further =>
        rcases (lead_eq_ok_iff.1 further).1 with ⟨names, folder⟩
        cases puts.placed.symm.trans folder
  | link leads reaches ih =>
    rcases puts.lead_before leads with old | new
    · exact ih.imp id (.link old)
    · cases new

/-- Where the file was to be written, there it is reached. -/
theorem reaches_of_targets (puts : before.Puts base name data after) {start : List Name}
    (targets : Targets before links start parts place) (same : place = base ++ [name]) :
    Reaches after links start parts place := by
  induction targets with
  | @missing start last missing =>
    obtain ⟨rfl, rfl⟩ : start = base ∧ last = name := by
      rcases List.append_inj' same rfl with ⟨first, second⟩
      exact ⟨first, List.singleton_inj.1 second⟩
    rcases puts.folder with ⟨names, folder, -⟩
    rcases lead_eq_notFound (by simp [folder]) missing with ⟨below, proper, -⟩
    refine .step (lead_eq_ok_iff.2 ⟨puts.isFolder_after folder, ?_⟩) .here
    exact .inr (.inr ⟨proper, _, puts.placed, rfl⟩)
  | held leads there noFolder => exact .step (puts.lead_after leads) .here
  | step leads targets ih => exact .step (puts.lead_after leads) (ih same)
  | link leads targets ih => exact .link (puts.lead_after leads) (ih same)

end FileNode.Puts

namespace FileTree

open FileNode

variable {root : FileNode} {base place parts : List Name} {links : Nat}

/-- A file is written under a proper name of a folder, where nothing stands or something that is
neither a folder nor a link. -/
theorem exists_of_targets (targets : Targets root links base parts place)
    (there : root.outlineAt base ≠ none) (plain : ∀ part ∈ parts, '/' ∉ part) :
    ∃ folder name, place = folder ++ [name] ∧ '/' ∉ name ∧ ProperName name ∧
      (∃ names, root.outlineAt folder = some (.folder names)) ∧
      (root.outlineAt place = none ∨ (∃ old, root.outlineAt place = some (.file old)) ∨
        ∃ kind, root.outlineAt place = some (.device kind)) := by
  induction targets with
  | @missing base last missing =>
    rcases lead_eq_notFound there missing with ⟨folder, proper, nothing⟩
    exact ⟨base, last, rfl, plain last List.mem_cons_self, proper, folder, .inl nothing⟩
  | @held base place last outline leads held noFolder =>
    rcases outlineAt_of_lead leads with ⟨names, folder⟩ | ⟨rfl, proper, folder, fileOrDevice⟩
    · cases held.symm.trans folder
      cases noFolder
    · exact ⟨base, last, rfl, plain last List.mem_cons_self, proper, folder, .inr fileOrDevice⟩
  | step leads targets ih =>
    exact ih (outlineAt_ne_none_of_lead leads) fun part member =>
      plain part (List.mem_cons_of_mem _ member)
  | link leads targets ih =>
    refine ih (outlineAt_startOf there _) fun part member => ?_
    rcases List.mem_append.1 member with inside | later
    · exact slash_not_mem_of_mem_parts inside
    · exact plain part (List.mem_cons_of_mem _ later)

/-! ## Trees -/

theorem locate_eq_ok_iff {tree : FileTree} {path : Path} :
    tree.locate path = .ok place ↔ checkPath path = .ok () ∧ ∃ links ≤ mostLinks,
      Reaches tree.root links (startOf tree.here path) (FileTree.parts path) place := by
  rw [← resolve_eq_ok_iff, locate]
  cases checkPath path with
  | error cause => simp [bind, Except.bind]
  | ok => simp [bind, Except.bind]

/-- A file was written under a name of a folder. -/
structure Wrote (before : FileTree) (path : Path) (data : Bytes) (base : List Name) (name : Name)
    (after : FileTree) : Prop where
  here_eq : after.here = before.here
  puts : before.root.Puts base name data after.root
  plain : '/' ∉ name
  proper : ProperName name
  checked : checkPath path = .ok ()
  targets : ∃ links ≤ mostLinks,
    Targets before.root links (startOf before.here path) (FileTree.parts path) (base ++ [name])

/-- The working folder of a tree is there. -/
def Grounded (tree : FileTree) : Prop :=
  tree.root.outlineAt tree.here ≠ none

variable {before after : FileTree} {path : Path} {data : Bytes} {name : Name}

/-- Writing writes a file, or nothing where a device takes the bytes. -/
theorem wrote_of_write (there : before.root.outlineAt (startOf before.here path) ≠ none)
    (written : before.write path data = .ok after) :
    (after = before ∧ ∃ links place kind,
        Targets before.root links (startOf before.here path) (FileTree.parts path) place ∧
          before.root.outlineAt place = some (.device kind)) ∨
      ∃ base name, before.Wrote path data base name after := by
  rw [write] at written
  cases checked : checkPath path with
  | error cause => simp [checked, bind, Except.bind] at written
  | ok =>
    simp only [checked, bind, Except.bind] at written
    cases found : target before.root mostLinks (startOf before.here path)
        (FileTree.parts path) with
    | error cause => simp [found] at written
    | ok place =>
      simp only [found] at written
      rcases targets_of_target found with ⟨links, few, targets⟩
      rcases exists_of_targets targets there fun _ => slash_not_mem_of_mem_parts with
        ⟨base, name, rfl, plain, proper, ⟨names, folder⟩, free⟩
      split at written
      case h_1 device =>
        cases written
        exact .inl ⟨rfl, links, _, _, targets, by rw [outlineAt, device]; rfl⟩
      case h_2 device =>
        split at written
        · cases written
          exact .inl ⟨rfl, links, _, _, targets, by rw [outlineAt, device]; rfl⟩
        · cases written
      case h_3 noSink notFull =>
        cases written
        refine .inr ⟨base, name, rfl, ?_, plain, proper, checked, links, few, targets⟩
        rcases node?_of_outlineAt_folder folder with ⟨entries, held, -⟩
        refine puts_put data held ?_
        rw [← node?_snoc held]
        cases stands : before.root.node? (base ++ [name]) with
        | none => exact .inl rfl
        | some node =>
          refine .inr ?_
          cases node with
          | file old => exact ⟨old, rfl⟩
          | folder entries => simp [outlineAt, stands, outline] at free
          | link target => simp [outlineAt, stands, outline] at free
          | device kind =>
            cases kind with
            | sink => exact absurd stands noSink
            | full => exact absurd stands notFull

namespace Wrote

theorem grounded (wrote : before.Wrote path data base name after) (there : before.Grounded) :
    after.Grounded := by
  rw [Grounded, wrote.here_eq]
  rcases Option.ne_none_iff_exists'.1 there with ⟨outline, there⟩
  rcases wrote.puts.outlineAt_after there with same | ⟨names, -, folder⟩ | ⟨old, -, file⟩
  · exact Option.ne_none_iff_exists'.2 ⟨_, same⟩
  · exact Option.ne_none_iff_exists'.2 ⟨_, folder⟩
  · exact Option.ne_none_iff_exists'.2 ⟨_, file⟩

/-- The written path leads to the file. -/
theorem locate_self (wrote : before.Wrote path data base name after) :
    after.locate path = .ok (base ++ [name]) := by
  rcases wrote.targets with ⟨links, few, targets⟩
  refine locate_eq_ok_iff.2 ⟨wrote.checked, links, few, ?_⟩
  rw [wrote.here_eq]
  exact wrote.puts.reaches_of_targets targets rfl

/-- All paths lead where they led. -/
theorem locate_after (wrote : before.Wrote path data base name after) {other : Path}
    (located : before.locate other = .ok place) : after.locate other = .ok place := by
  rcases locate_eq_ok_iff.1 located with ⟨checked, links, few, reaches⟩
  refine locate_eq_ok_iff.2 ⟨checked, links, few, ?_⟩
  rw [wrote.here_eq]
  exact wrote.puts.reaches_after reaches

/-- A path that leads somewhere led there before, unless it leads to the file. -/
theorem locate_before (wrote : before.Wrote path data base name after) {other : Path}
    (located : after.locate other = .ok place) :
    place = base ++ [name] ∨ before.locate other = .ok place := by
  rcases locate_eq_ok_iff.1 located with ⟨checked, links, few, reaches⟩
  rw [wrote.here_eq] at reaches
  exact (wrote.puts.reaches_before reaches).imp id fun old =>
    locate_eq_ok_iff.2 ⟨checked, links, few, old⟩

end Wrote

end FileTree

end GramCensus
