import Mathlib.Data.List.Basic
import GramCensus.FileTree.Walk
import GramCensus.Settings

/-!
# The parts of composed paths

The paths of a folder's entries and of a census's results are composed of other paths, and their
parts are composed of the parts of these: the entry's name stands behind the parts of the folder
(`FileTree.exists_parts_joinPath`), and all results of one stem differ in their last part
(`FileTree.parts_resultPath`).
-/

namespace GramCensus

namespace FileTree

theorem parts_ne_nil (path : Path) : parts path ≠ [] := by
  cases path with
  | nil => exact List.cons_ne_nil _ _
  | cons c rest =>
    rw [parts]
    split
    · exact List.cons_ne_nil _ _
    · split <;> exact List.cons_ne_nil _ _

/-- A character that is no slash extends the first part. -/
private theorem parts_cons_of_ne {c : Char} (other : c ≠ '/') (rest : Path) :
    ∃ first others, parts rest = first :: others ∧ parts (c :: rest) = (c :: first) :: others := by
  cases behind : parts rest with
  | nil => exact absurd behind (parts_ne_nil rest)
  | cons first others => exact ⟨first, others, rfl, by rw [parts, if_neg other, behind]⟩

/-- There are no slashes in the parts of a path. -/
theorem slash_not_mem_of_mem_parts {path : Path} {part : Name} (member : part ∈ parts path) :
    '/' ∉ part := by
  induction path generalizing part with
  | nil =>
    obtain rfl := List.mem_singleton.1 member
    exact List.not_mem_nil
  | cons c rest ih =>
    by_cases slash : c = '/'
    · rw [parts, if_pos slash] at member
      rcases List.mem_cons.1 member with rfl | later
      · exact List.not_mem_nil
      · exact ih later
    · rcases parts_cons_of_ne slash rest with ⟨first, others, behind, whole⟩
      rw [whole] at member
      rcases List.mem_cons.1 member with rfl | later
      · intro inside
        rcases List.mem_cons.1 inside with same | inside
        · exact slash same.symm
        · exact ih (by rw [behind]; exact List.mem_cons_self) inside
      · exact ih (by rw [behind]; exact List.mem_cons_of_mem _ later)

/-- A slash divides the parts before it from those behind it. -/
theorem parts_append_slash (first second : Path) :
    parts (first ++ '/' :: second) = parts first ++ parts second := by
  induction first with
  | nil => rfl
  | cons c rest ih =>
    by_cases slash : c = '/'
    · rw [List.cons_append, parts, if_pos slash, parts, if_pos slash, ih]
      rfl
    · rcases parts_cons_of_ne slash rest with ⟨part, others, behind, whole⟩
      rw [List.cons_append, parts, if_neg slash, ih, behind, whole]
      rfl

/-- A text without slashes extends the last part. -/
theorem parts_append {text : List Char} (plain : '/' ∉ text) (path : Path) :
    parts (path ++ text) = (parts path).dropLast ++ [lastPart path ++ text] := by
  induction path with
  | nil =>
    rw [List.nil_append]
    induction text with
    | nil => rfl
    | cons c rest ih =>
      have slash : c ≠ '/' := fun same => plain (by rw [same]; exact List.mem_cons_self)
      have later : parts rest = [rest] := ih fun inside => plain (List.mem_cons_of_mem _ inside)
      rcases parts_cons_of_ne slash rest with ⟨first, others, behind, whole⟩
      rw [later] at behind
      cases behind
      exact whole
  | cons c rest ih =>
    by_cases slash : c = '/'
    · have last : lastPart (c :: rest) = lastPart rest := by
        rw [lastPart, parts, if_pos slash, List.getLastD_cons, lastPart]
      rw [List.cons_append, parts, if_pos slash, ih, parts, if_pos slash, last,
        List.dropLast_cons_of_ne_nil (parts_ne_nil rest), List.cons_append]
    · rcases parts_cons_of_ne slash rest with ⟨part, others, behind, whole⟩
      rw [lastPart, whole, List.cons_append, parts, if_neg slash, ih, lastPart, behind]
      cases others <;> rfl

theorem parts_of_plain {name : Name} (plain : '/' ∉ name) : parts name = [name] :=
  parts_append plain []

/-! ## Entries of folders -/

/-- The path of an entry has the parts of the folder, or all but an empty one behind a slash, and
the name of the entry. -/
theorem exists_parts_joinPath {folder : Path} {name : Name} (written : folder ≠ [])
    (plain : '/' ∉ name) :
    ∃ above, (parts folder = above ∨ parts folder = above ++ [[]]) ∧
      parts (joinPath folder name) = above ++ [name] ∧
      isAbsolute (joinPath folder name) = isAbsolute folder := by
  rw [joinPath]
  split
  case isTrue ends =>
    obtain ⟨rest, rfl⟩ : ∃ rest, folder = rest ++ ['/'] := by
      rcases ends with empty | slash
      · exact absurd (List.isEmpty_iff.1 empty) written
      · exact List.getLast?_eq_some_iff.1 slash
    refine ⟨parts rest, .inr (parts_append_slash rest []), ?_, ?_⟩
    · rw [List.append_assoc]
      exact (parts_append_slash rest name).trans (congrArg _ (parts_of_plain plain))
    · cases rest <;> rfl
  case isFalse =>
    refine ⟨parts folder, .inl rfl, ?_, ?_⟩
    · rw [parts_append_slash, parts_of_plain plain]
    · rw [isAbsolute, isAbsolute, List.head?_append_of_ne_nil _ written]

/-! ## Results of a census -/

/-- The name of the results for n-grams of a length. -/
def resultName (stem : Path) (length : Nat) : Name :=
  resultPath (lastPart stem) length

theorem slash_not_mem_suffix (length : Nat) :
    '/' ∉ '.' :: (Nat.toDigits 10 length ++ ".txt".toList) := by
  have digits : '/' ∉ Nat.toDigits 10 length := fun member =>
    absurd (Nat.isDigit_of_mem_toDigits (by decide) (by decide) member) (by decide)
  simp [digits]

/-- All results of one stem stand in one folder. -/
theorem parts_resultPath (stem : Path) (length : Nat) :
    parts (resultPath stem length) = (parts stem).dropLast ++ [resultName stem length] :=
  parts_append (slash_not_mem_suffix length) stem

theorem isAbsolute_resultPath (stem : Path) (length : Nat) :
    isAbsolute (resultPath stem length) = isAbsolute stem := by
  cases stem <;> rfl

/-- Results for different lengths have different names. -/
theorem resultName_injective (stem : Path) {first second : Nat}
    (same : resultName stem first = resultName stem second) : first = second := by
  have suffixes := List.append_cancel_left same
  have digits := List.append_cancel_right (List.cons.inj suffixes).2
  calc
    first = Nat.ofDigitChars 10 (Nat.toDigits 10 first) 0 := Nat.ofDigitChars_ten_toDigits.symm
    _ = Nat.ofDigitChars 10 (Nat.toDigits 10 second) 0 := by rw [digits]
    _ = second := Nat.ofDigitChars_ten_toDigits

end FileTree

end GramCensus
