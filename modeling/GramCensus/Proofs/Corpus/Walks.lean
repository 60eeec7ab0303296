import GramCensus.Proofs.Corpus.Spread
import GramCensus.Proofs.FileTree.Walking

/-!
# Corpora hand out what a walk lists

A walk keeps the paths that it has still to visit on a stack. What it finds, one file after the other,
is what a listing by recursion finds (`Walk.files_eq`, `Walk.visit_sorted`), whatever the view shows:
links that lead back to a folder above are followed down to the depth limit. Main statement: a corpus
answers every sequence of calls out of that list, from the position that the calls before have brought
it to (`Corpus.answers_ofRoots`).
-/

namespace GramCensus

/-! ## Names in ascending order -/

/-- The view that shows the names in every folder in ascending order. -/
def View.sorted (sights : View) : View := fun path =>
  match sights path with
  | .folder names => .folder (sortNames names)
  | sight => sight

/-- What there is at each path of a file tree. -/
def FileTree.sights (tree : FileTree) : View := fun path =>
  match tree.find path with
  | .ok (.file data) => .file data
  | .ok (.folder entries) => .folder (entries.map (·.1))
  | _ => .nothing

/-- Walks see a file tree with its names in ascending order. -/
theorem FileTree.view_eq_sorted (tree : FileTree) : tree.view = tree.sights.sorted := by
  funext path
  rw [view, View.sorted, sights]
  cases tree.find path with
  | error cause => rfl
  | ok node => cases node <;> rfl

namespace Walk

variable {view : View}

/-! ## Walking and listing -/

/-- The files at a path that lies `depth` folders deep: the file itself, or, where folders are not yet
`limit` deep, the files at the entries of the folder, by ascending name. -/
def listing (sights : View) (limit depth : Nat) (path : Path) : List Found :=
  match sights path with
  | .file data => [⟨path, data⟩]
  | .folder names =>
    if depth < limit then
      (sortNames names).flatMap fun name => listing sights limit (depth + 1) (joinPath path name)
    else []
  | .nothing => []
termination_by limit - depth

/-- Visiting counts the folders that are left, and listing those that were entered. -/
theorem visit_sorted (sights : View) {limit depth remaining : Nat} (deep : depth + remaining = limit)
    (path : Path) : visit sights.sorted remaining path = listing sights limit depth path := by
  induction remaining generalizing depth path with
  | zero =>
    rw [visit, View.sorted, listing]
    cases sights path with
    | file data => rfl
    | folder names => exact (if_neg (by omega)).symm
    | nothing => rfl
  | succ remaining ih =>
    rw [visit, View.sorted, listing]
    cases sights path with
    | file data => rfl
    | folder names =>
      refine Eq.trans ?_ (if_pos (by omega)).symm
      exact List.flatMap_congr fun name _ => ih (by omega) (joinPath path name)
    | nothing => rfl

theorem files_cons (view : View) (next : Pending) (rest : List Pending) :
    files view (next :: rest) = visit view next.depth next.path ++ files view rest :=
  List.flatMap_cons

theorem files_append (view : View) (first second : List Pending) :
    files view (first ++ second) = files view first ++ files view second :=
  List.flatMap_append

/-- The files at the entries of a folder are the files of the folder. -/
theorem files_entries {path : Path} {names : List Name} (shown : view path = .folder names)
    (depth : Nat) : files view (entries path depth names) = visit view (depth + 1) path := by
  rw [files, entries, List.flatMap_map, visit, shown]

/-- What a walk finds next is the first of its files, and behind it the others are left. -/
theorem files_eq (view : View) (pending : List Pending) :
    files view pending =
      match nextFile view pending with
      | none => []
      | some (first, behind) => first :: files view behind := by
  fun_induction nextFile view pending with
  | case1 => rfl
  | case2 path depth rest data shown =>
    rw [files_cons]
    cases depth <;> simp only [visit, shown, List.singleton_append]
  | case3 path rest names depth shown ih =>
    rw [files_cons, ← ih, files_append, files_entries shown]
  | case4 path rest names shown ih =>
    rw [files_cons, ← ih, visit, shown, List.nil_append]
  | case5 path depth rest shown ih =>
    rw [files_cons, ← ih]
    cases depth <;> simp only [visit, shown, List.nil_append]

/-- Found one after the other, the files of a walk are all there. -/
theorem found_eq_files (view : View) (pending : List Pending) : found view pending = files view pending := by
  fun_induction found view pending with
  | case1 pending none => rw [files_eq, none]
  | case2 pending first behind next ih => rw [files_eq, next, ih]

theorem files_start_sorted (sights : View) (roots : List Path) (limit : Nat) :
    files sights.sorted (start roots limit) = roots.flatMap (listing sights limit 0) := by
  rw [files, start, List.flatMap_map]
  exact List.flatMap_congr fun root _ => visit_sorted sights (Nat.zero_add limit) root

end Walk

namespace Corpus

variable {view : View} {corpus : Corpus}

/-! ## Calls -/

/-- What a corpus can be asked for. -/
inductive Call where
  /-- The next file. -/
  | next
  /-- The number of files. -/
  | count
  /-- To go back to the first file. -/
  | reset
  deriving DecidableEq, Repr

/-- What a corpus replies to a call. -/
inductive Reply where
  | file (file : Option OpenedFile)
  | number (number : Nat)
  | done
  deriving DecidableEq, Repr

/-- The reply to a call, and the corpus behind it. -/
def answer (view : View) (corpus : Corpus) : Call → Reply × Corpus
  | .next => (.file (corpus.next view).1, (corpus.next view).2)
  | .count => (.number (corpus.count view), corpus)
  | .reset => (.done, corpus.reset)

/-- The replies to some calls, one after the other. -/
def answers (view : View) : Corpus → List Call → List Reply
  | _, [] => []
  | corpus, call :: calls =>
    (corpus.answer view call).1 :: answers view (corpus.answer view call).2 calls

/-- The replies that are read off a list of files, from a position in it on. -/
def readings (files : List OpenedFile) : (position : Nat) → List Call → List Reply
  | _, [] => []
  | position, .next :: calls => .file files[position]? :: readings files (position + 1) calls
  | position, .count :: calls => .number files.length :: readings files position calls
  | _, .reset :: calls => .done :: readings files 0 calls

/-- Files that were found, with their numbers. -/
def opened (found : List Found) : List OpenedFile :=
  found.zipIdx.map fun (found, id) => ⟨id, found.path, .ofBytes found.data⟩

/-! ## Positions -/

/-- A corpus over some files has those from a position on still to come. -/
structure StandsAt (view : View) (files : List OpenedFile) (position : Nat) (corpus : Corpus) :
    Prop where
  all : corpus.files view = files
  left : corpus.rest view = files.drop position

/-- The next file is the first of those that are still to come. -/
theorem next_eq (view : View) (corpus : Corpus) :
    (corpus.next view).1 = (corpus.rest view).head? ∧
      (corpus.next view).2.rest view = (corpus.rest view).tail := by
  cases corpus with
  | listed streams id =>
    by_cases inside : id < streams.length
    · rw [rest, List.drop_eq_getElem_cons inside, List.zipIdx_cons]
      simp [next, inside, rest]
    · have none : streams.drop id = [] := List.drop_eq_nil_of_le (Nat.le_of_not_lt inside)
      have still : streams.drop (id + 1) = [] := List.drop_eq_nil_of_le (by omega)
      simp [next, rest, none, still, Nat.le_of_not_lt inside]
  | walked roots depth pending id =>
    have all := Walk.files_eq view pending
    cases found : Walk.nextFile view pending with
    | none =>
      have nothing : Walk.files view [] = [] := rfl
      rw [found] at all
      simp [next, found, rest, all, nothing]
    | some first =>
      rw [found] at all
      simp [next, found, rest, all, List.zipIdx_cons]

/-- Counting walks through all files. -/
theorem count_eq (view : View) (corpus : Corpus) :
    corpus.count view = (corpus.files view).length := by
  cases corpus with
  | listed streams id => simp [count, files, reset, rest]
  | walked roots depth pending id => simp [count, files, reset, rest, Walk.found_eq_files]

namespace StandsAt

variable {files : List OpenedFile} {position : Nat}

theorem next (stands : StandsAt view files position corpus) :
    (corpus.next view).1 = files[position]? ∧
      StandsAt view files (position + 1) (corpus.next view).2 := by
  rcases next_eq view corpus with ⟨first, others⟩
  refine ⟨?_, ?_, ?_⟩
  · rw [first, stands.left, List.head?_drop]
  · rw [Corpus.files, reset_next, ← stands.all, Corpus.files]
  · rw [others, stands.left, List.tail_drop]

/-- A corpus at its first file has all of them to come. -/
theorem reset (stands : StandsAt view files position corpus) :
    StandsAt view files 0 corpus.reset := by
  refine ⟨?_, stands.all⟩
  rw [← stands.all]
  cases corpus <;> rfl

/-- Every sequence of calls is answered out of the list of files. -/
theorem answers_eq (stands : StandsAt view files position corpus) (calls : List Call) :
    corpus.answers view calls = readings files position calls := by
  induction calls generalizing corpus position with
  | nil => rfl
  | cons call calls ih =>
    cases call with
    | next =>
      rcases stands.next with ⟨first, behind⟩
      rw [answers, readings, answer, first, ih behind]
    | count => rw [answers, readings, answer, count_eq, stands.all, ih stands]
    | reset => rw [answers, readings, answer, ih stands.reset]

end StandsAt

/-- A corpus over some roots stands at the first of the files that are listed below them. -/
theorem standsAt_ofRoots (sights : View) (roots : List Path) (limit : Nat) :
    StandsAt sights.sorted (opened (roots.flatMap (Walk.listing sights limit 0))) 0
      (ofRoots roots limit) := by
  have all : (ofRoots roots limit).rest sights.sorted =
      opened (roots.flatMap (Walk.listing sights limit 0)) := by
    rw [← Walk.files_start_sorted]
    rfl
  exact ⟨all, all⟩

/-- Calls of a corpus over some roots are answered out of one list, whatever is seen below the roots and
wherever links lead: the files of the listings of the roots, numbered from zero on. Asking for the next
file moves on by one, and behind the last file there is none. Counting gives the number of files and
moves nothing, and going back leads to the first file and its number again. This is so for every view
with its names in ascending order, and so for every file tree. Putting names in order leaves none out
and adds none. -/
theorem answers_ofRoots (roots : List Path) (limit : Nat) (calls : List Call) :
    (∀ sights : View, (ofRoots roots limit).answers sights.sorted calls =
      readings (opened (roots.flatMap (Walk.listing sights limit 0))) 0 calls) ∧
    (∀ tree : FileTree, (ofRoots roots limit).answers tree.view calls =
      readings (opened (roots.flatMap (Walk.listing tree.sights limit 0))) 0 calls) ∧
    ∀ names, (sortNames names).Pairwise (fun a b => b.lex a = false) ∧
      (sortNames names).Perm names := by
  have every : ∀ sights : View, (ofRoots roots limit).answers sights.sorted calls =
      readings (opened (roots.flatMap (Walk.listing sights limit 0))) 0 calls := fun sights =>
    (standsAt_ofRoots sights roots limit).answers_eq calls
  refine ⟨every, fun tree => ?_, fun names => ⟨pairwise_sortNames names, stableSort_perm _ names⟩⟩
  rw [tree.view_eq_sorted]
  exact every tree.sights

/-- Every folder holds a file and a link back to the folder. -/
def linkedFolder : View := fun path =>
  if path.getLast? = some 'f' then .file [7] else .folder [['f'], ['d']]

example :
    (ofRoots [['d']] 2).answers linkedFolder.sorted [.next, .count, .next, .next, .reset, .next] =
      [.file (some ⟨0, "d/d/f".toList, .ofBytes [7]⟩), .number 2,
        .file (some ⟨1, "d/f".toList, .ofBytes [7]⟩), .file none, .done,
        .file (some ⟨0, "d/d/f".toList, .ofBytes [7]⟩)] := by
  decide +kernel

end Corpus

end GramCensus
