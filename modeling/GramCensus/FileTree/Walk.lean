import GramCensus.FileTree.Basic
import GramCensus.StableSort

/-!
# Walking folders

A walk lists the files below some roots depth-first, the entries of a folder in the order of their
names, and does not descend into folders at the depth limit. It sees the file system through a
`View` of paths. `visit` is the listing of one path as a recursion; `nextFile` finds the files one
at a time and keeps what is still to be visited on a stack, so that changes of the file system between
two files are seen where the walk has not been yet. Links may lead back to where a walk came from: it
ends because what lies below a path is looked at with one folder less to go (`work`).
-/

namespace GramCensus

/-! ## Views -/

/-- What a walk sees at a path, links followed. A path that leads nowhere, or to something that is
neither a file nor a folder, shows nothing. -/
inductive Sight where
  | file (data : Bytes)
  | folder (names : List Name)
  | nothing
  deriving DecidableEq, Repr

/-- What there is to see at each path. -/
abbrev View := Path → Sight

/-- Names are ordered by their characters, which is the order of their bytes in UTF-8. -/
def sortNames (names : List Name) : List Name :=
  stableSort (fun a b => !b.lex a) names

/-- The view of a file tree. -/
def FileTree.view (tree : FileTree) : View := fun path =>
  match tree.find path with
  | .ok (.file data) => .file data
  | .ok (.folder entries) => .folder (sortNames (entries.map (·.1)))
  | _ => .nothing

/-- The path of an entry of a folder. -/
def joinPath (folder : Path) (name : Name) : Path :=
  if folder.isEmpty ∨ folder.getLast? = some '/' then folder ++ name else folder ++ '/' :: name

/-! ## Walking -/

/-- A file that a walk found. -/
structure Found where
  path : Path
  data : Bytes
  deriving DecidableEq, Repr

/-- A path that is still to be visited, and how many folders deep. -/
structure Pending where
  path : Path
  depth : Nat
  deriving DecidableEq, Repr

namespace Walk

/-- The files at a path and at most `depth` folders below it. -/
def visit (view : View) : (depth : Nat) → Path → List Found
  | 0, path =>
    match view path with
    | .file data => [⟨path, data⟩]
    | _ => []
  | depth + 1, path =>
    match view path with
    | .file data => [⟨path, data⟩]
    | .folder names => names.flatMap fun name => visit view depth (joinPath path name)
    | .nothing => []

/-- The entries of a folder, each with the number of folders below it that may be looked into. -/
def entries (folder : Path) (depth : Nat) (names : List Name) : List Pending :=
  names.map fun name => ⟨joinPath folder name, depth⟩

/-- The number of paths that a walk looks at, at a path and at most `depth` folders below it. -/
def looks (view : View) : (depth : Nat) → Path → Nat
  | 0, _ => 1
  | depth + 1, path =>
    match view path with
    | .folder names => 1 + sumOf (names.map fun name => looks view depth (joinPath path name))
    | _ => 1

/-- The number of paths that a walk still looks at. -/
def work (view : View) (pending : List Pending) : Nat :=
  sumOf (pending.map fun next => looks view next.depth next.path)

theorem looks_pos (view : View) (depth : Nat) (path : Path) : 0 < looks view depth path := by
  cases depth with
  | zero => exact Nat.one_pos
  | succ depth =>
    rw [looks]
    split
    · exact Nat.lt_of_lt_of_le Nat.one_pos (Nat.le_add_right 1 _)
    · exact Nat.one_pos

/-- A path that was looked at is left behind. -/
theorem work_rest_lt (view : View) (next : Pending) (rest : List Pending) :
    work view rest < work view (next :: rest) := by
  have positive := looks_pos view next.depth next.path
  simp only [work, List.map_cons, sumOf_cons]
  omega

/-- The entries of a folder are less work than the folder. -/
theorem work_entries_lt {view : View} {path : Path} {names : List Name}
    (shown : view path = .folder names) (depth : Nat) (rest : List Pending) :
    work view (entries path depth names ++ rest) < work view (⟨path, depth + 1⟩ :: rest) := by
  have folder : looks view (depth + 1) path =
      1 + sumOf (names.map fun name => looks view depth (joinPath path name)) := by
    rw [looks, shown]
  simp only [work, entries, List.map_append, List.map_map, Function.comp_def, sumOf_append,
    List.map_cons, sumOf_cons, folder]
  omega

/-- The next file of a walk, and what is to be visited behind it. The path on top of the stack is
looked at; in the place of a folder that is not at the depth limit come its entries. -/
def nextFile (view : View) : List Pending → Option (Found × List Pending)
  | [] => none
  | ⟨path, depth⟩ :: rest =>
    match _shown : view path, depth with
    | .file data, _ => some (⟨path, data⟩, rest)
    | .folder names, depth + 1 => nextFile view (entries path depth names ++ rest)
    | .folder _, 0 => nextFile view rest
    | .nothing, _ => nextFile view rest
termination_by pending => work view pending
decreasing_by
  · exact work_entries_lt _shown depth rest
  · exact work_rest_lt view _ rest
  · exact work_rest_lt view _ rest

/-- Behind a file there is less to do. -/
theorem work_of_nextFile {view : View} {pending behind : List Pending} {found : Found}
    (next : nextFile view pending = some (found, behind)) : work view behind < work view pending := by
  fun_induction nextFile view pending with
  | case1 => cases next
  | case2 path depth =>
    cases next
    exact work_rest_lt view ⟨path, depth⟩ behind
  | case3 path rest names depth shown ih =>
    exact Nat.lt_trans (ih next) (work_entries_lt shown depth rest)
  | case4 path rest names shown ih =>
    exact Nat.lt_trans (ih next) (work_rest_lt view ⟨path, 0⟩ rest)
  | case5 path depth rest shown ih =>
    exact Nat.lt_trans (ih next) (work_rest_lt view ⟨path, depth⟩ rest)

/-- The files that a walk finds one after the other. -/
def found (view : View) (pending : List Pending) : List Found :=
  match _next : nextFile view pending with
  | none => []
  | some (first, behind) => first :: found view behind
termination_by work view pending
decreasing_by exact work_of_nextFile _next

/-- All files of a walk. -/
def files (view : View) (pending : List Pending) : List Found :=
  pending.flatMap fun next => visit view next.depth next.path

/-- A walk at its start. -/
def start (roots : List Path) (depth : Nat) : List Pending :=
  roots.map fun path => ⟨path, depth⟩

end Walk

end GramCensus
