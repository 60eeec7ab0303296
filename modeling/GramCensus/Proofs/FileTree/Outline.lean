import Mathlib.Data.List.Basic
import GramCensus.FileTree.Basic

/-!
# Outlines of file trees

The outline of a node is what it shows without a look into the nodes below it: all data of a file,
and the names in a folder (`FileNode.Outline`). Putting a file into a folder changes two outlines in
a tree, that of its own place and that of the folder (`FileNode.puts_put`).
-/

namespace GramCensus

namespace FileNode

/-- What a node shows without looking into the nodes below it. -/
inductive Outline where
  | file (data : Bytes)
  | folder (names : List Name)
  | link (target : Path)
  | device (kind : Device)
  deriving DecidableEq, Repr

def outline : FileNode → Outline
  | .file data => .file data
  | .folder entries => .folder (entries.map (·.1))
  | .link target => .link target
  | .device kind => .device kind

/-- The outline of what stands at the end of some names. -/
def outlineAt (root : FileNode) (place : List Name) : Option Outline :=
  (root.node? place).map outline

variable {root : FileNode} {entries : List (Name × FileNode)}

theorem node?_of_outlineAt_folder {place : List Name} {names : List Name}
    (found : root.outlineAt place = some (.folder names)) :
    ∃ entries, root.node? place = some (.folder entries) ∧ entries.map (·.1) = names := by
  rcases Option.map_eq_some_iff.1 found with ⟨node, held, shown⟩
  cases node with
  | folder entries => exact ⟨entries, held, Outline.folder.inj shown⟩
  | file data => cases shown
  | link target => cases shown
  | device kind => cases shown

theorem node?_of_outlineAt_file {place : List Name} {data : Bytes}
    (found : root.outlineAt place = some (.file data)) : root.node? place = some (.file data) := by
  rcases Option.map_eq_some_iff.1 found with ⟨node, held, shown⟩
  cases node with
  | file other => rw [held, Outline.file.inj shown]
  | folder entries => cases shown
  | link target => cases shown
  | device kind => cases shown

theorem node?_append (root : FileNode) (first second : List Name) :
    root.node? (first ++ second) = (root.node? first).bind fun node => node.node? second := by
  induction first generalizing root with
  | nil => rfl
  | cons name rest ih =>
    rw [List.cons_append, node?, node?, Option.bind_assoc]
    congr 1
    funext child
    exact ih child

theorem node?_snoc {base : List Name} (found : root.node? base = some (.folder entries))
    (name : Name) : root.node? (base ++ [name]) = entries.lookup name := by
  rw [node?_append, found, Option.bind_some, node?, entry?]
  cases entries.lookup name <;> rfl

theorem lookup_eq_none_iff_not_mem {entries : List (Name × FileNode)} {name : Name} :
    entries.lookup name = none ↔ name ∉ entries.map (·.1) := by
  induction entries with
  | nil => simp
  | cons entry rest ih =>
    rw [List.lookup_cons, List.map_cons, List.mem_cons]
    by_cases same : name = entry.1
    · simp [same]
    · rw [beq_false_of_ne same]
      simpa [same] using ih

/-! ## Putting an entry into a folder -/

theorem lookup_putEntry (name other : Name) (node : FileNode)
    (entries : List (Name × FileNode)) :
    (putEntry name node entries).lookup other =
      if other = name then some node else entries.lookup other := by
  induction entries with
  | nil =>
    by_cases same : other = name
    · simp [putEntry, same]
    · simp [putEntry, List.lookup_cons, same, beq_false_of_ne same]
  | cons entry rest ih =>
    rw [putEntry]
    split
    case isTrue first =>
      rw [List.lookup_cons, List.lookup_cons, first]
      by_cases same : other = name
      · simp [same]
      · simp [same, beq_false_of_ne same]
    case isFalse first =>
      rw [List.lookup_cons, List.lookup_cons, ih]
      by_cases here : other = entry.1
      · have different : ¬ other = name := fun same => first (here.symm.trans same)
        simp [here, show ¬ entry.1 = name from first]
      · simp [beq_false_of_ne here]

/-- The names with one more behind them, unless it is one of them. -/
def including (name : Name) (names : List Name) : List Name :=
  if name ∈ names then names else names ++ [name]

theorem mem_including_self (name : Name) (names : List Name) : name ∈ including name names := by
  rw [including]
  split
  case isTrue member => exact member
  case isFalse => exact List.mem_append_right _ List.mem_cons_self

theorem mem_including {name other : Name} {names : List Name} (member : other ∈ names) :
    other ∈ including name names := by
  rw [including]
  split
  · exact member
  · exact List.mem_append_left _ member

theorem map_fst_putEntry (name : Name) (node : FileNode) (entries : List (Name × FileNode)) :
    (putEntry name node entries).map (·.1) = including name (entries.map (·.1)) := by
  induction entries with
  | nil => rfl
  | cons entry rest ih =>
    rw [putEntry, including]
    split
    case isTrue first => simp [first]
    case isFalse first =>
      have other : ¬ name = entry.1 := fun same => first same.symm
      rw [List.map_cons, ih, including]
      by_cases member : name ∈ rest.map (·.1)
      · simp [member]
      · simp [member, other]

/-! ## Putting a file into a tree -/

/-- A file is put into a folder, in the place of an older file or where nothing stood. Everything
else stays as it was. -/
structure Puts (before : FileNode) (base : List Name) (name : Name) (data : Bytes)
    (after : FileNode) : Prop where
  folder : ∃ names, before.outlineAt base = some (.folder names) ∧
    after.outlineAt base = some (.folder (including name names))
  vacant : before.outlineAt (base ++ [name]) = none ∨
    ∃ old, before.outlineAt (base ++ [name]) = some (.file old)
  placed : after.outlineAt (base ++ [name]) = some (.file data)
  others : ∀ place, place ≠ base → place ≠ base ++ [name] →
    after.outlineAt place = before.outlineAt place

/-- What stands below a folder is what stands below its entries. -/
private theorem outlineAt_cons (entries : List (Name × FileNode)) (name : Name)
    (rest : List Name) : (FileNode.folder entries).outlineAt (name :: rest) =
      (entries.lookup name).bind fun child => child.outlineAt rest := by
  rw [outlineAt, node?, entry?, Option.map_bind]
  rfl

private theorem outlineAt_cons_of_file (data : Bytes) (name : Name) (rest : List Name) :
    (FileNode.file data).outlineAt (name :: rest) = none :=
  rfl

/-- Where an entry is put into a folder, other entries show what they showed. -/
private theorem outlineAt_putEntry (name other : Name) (node : FileNode) (rest : List Name) :
    (FileNode.folder (putEntry name node entries)).outlineAt (other :: rest) =
      if other = name then node.outlineAt rest
      else (FileNode.folder entries).outlineAt (other :: rest) := by
  rw [outlineAt_cons, outlineAt_cons, lookup_putEntry]
  split <;> rfl

/-- A file is put into the folder that is the root. -/
theorem puts_putEntry {name : Name} (data : Bytes)
    (vacant : entries.lookup name = none ∨ ∃ old, entries.lookup name = some (.file old)) :
    (FileNode.folder entries).Puts [] name data
      (.folder (putEntry name (.file data) entries)) := by
  refine ⟨⟨_, rfl, ?_⟩, ?_, ?_, ?_⟩
  · rw [outlineAt, node?, Option.map_some, outline, map_fst_putEntry]
  · rw [List.nil_append, outlineAt_cons]
    rcases vacant with none | ⟨old, held⟩
    · exact .inl (by rw [none]; rfl)
    · exact .inr ⟨old, by rw [held]; rfl⟩
  · rw [List.nil_append, outlineAt_putEntry, if_pos rfl]
    rfl
  · intro place notBase notPlace
    cases place with
    | nil => exact absurd rfl notBase
    | cons first rest =>
      rw [outlineAt_putEntry]
      split
      case isTrue same =>
        -- Nothing stands below the file, and nothing stood below what was there before.
        subst same
        obtain ⟨next, later, rfl⟩ : ∃ next later, rest = next :: later :=
          List.exists_cons_of_ne_nil fun empty => notPlace (by rw [empty]; rfl)
        rw [outlineAt_cons_of_file, outlineAt_cons]
        rcases vacant with none | ⟨old, held⟩
        · rw [none]
          rfl
        · rw [held]
          rfl
      case isFalse => rfl

/-- What is put into an entry of a folder is put into the folder. -/
theorem Puts.below {base : List Name} {first name : Name} {data : Bytes} {child after : FileNode}
    (puts : child.Puts base name data after) (entry : entries.lookup first = some child) :
    (FileNode.folder entries).Puts (first :: base) name data
      (.folder (putEntry first after entries)) := by
  rcases puts with ⟨⟨names, before, there⟩, vacant, placed, others⟩
  have old : ∀ rest, (FileNode.folder entries).outlineAt (first :: rest) =
      child.outlineAt rest := by
    intro rest
    rw [outlineAt_cons, entry, Option.bind_some]
  have new : ∀ rest, (FileNode.folder (putEntry first after entries)).outlineAt (first :: rest) =
      after.outlineAt rest := by
    intro rest
    rw [outlineAt_putEntry, if_pos rfl]
  refine ⟨⟨names, ?_, ?_⟩, ?_, ?_, ?_⟩
  · rwa [old]
  · rwa [new]
  · rwa [List.cons_append, old]
  · rwa [List.cons_append, new]
  · intro place notBase notPlace
    cases place with
    | nil =>
      have member : first ∈ entries.map (·.1) := by
        apply Classical.byContradiction
        intro missing
        rw [lookup_eq_none_iff_not_mem.2 missing] at entry
        cases entry
      rw [outlineAt, outlineAt, node?, node?, Option.map_some, Option.map_some, outline, outline,
        map_fst_putEntry, including, if_pos member]
    | cons other rest =>
      by_cases same : other = first
      · subst same
        rw [old, new]
        exact others rest (fun equal => notBase (by rw [equal]))
          (fun equal => notPlace (by rw [equal]; rfl))
      · rw [outlineAt_putEntry, if_neg same]

theorem puts_put {base : List Name} {name : Name} (data : Bytes)
    (found : root.node? base = some (.folder entries))
    (vacant : entries.lookup name = none ∨ ∃ old, entries.lookup name = some (.file old)) :
    root.Puts base name data (root.put (base ++ [name]) (.file data)) := by
  induction base generalizing root with
  | nil =>
    obtain rfl : root = .folder entries := Option.some.inj found
    have put_eq : (FileNode.folder entries).put [name] (.file data) =
        .folder (putEntry name (.file data) entries) := by simp only [put]
    rw [List.nil_append, put_eq]
    exact puts_putEntry data vacant
  | cons first base ih =>
    -- The folder lies below an entry of the root, and only that entry changes.
    rw [node?] at found
    rcases Option.bind_eq_some_iff.1 found with ⟨child, entry, below⟩
    obtain ⟨siblings, rfl⟩ : ∃ siblings, root = .folder siblings := by
      cases root with
      | folder siblings => exact ⟨siblings, rfl⟩
      | file data => cases entry
      | link target => cases entry
      | device kind => cases entry
    rw [ entry?] at entry
    rw [List.cons_append, put, entry, Option.getD_some]
    exact (ih below).below entry

end FileNode

end GramCensus
