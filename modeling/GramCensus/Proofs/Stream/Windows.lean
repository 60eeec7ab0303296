import GramCensus.Bytes

/-!
# Windows of byte strings

The windows of a byte string are its infixes of one width (`mem_windows_iff`). A byte string may be
cut anywhere: the windows of both parts together are the windows of the whole, if the second part is
put behind the last bytes of the first (`windows_append`). This is why chunks overlap by one byte
less than the width of what is counted.
-/

namespace GramCensus

namespace Bytes

/-- What is left of a byte string's end, at most `length` bytes. -/
def lastBytes (length : Nat) (bytes : Bytes) : Bytes :=
  bytes.drop (bytes.length - length)

theorem length_lastBytes (length : Nat) (bytes : Bytes) :
    (lastBytes length bytes).length = min length bytes.length := by
  rw [lastBytes, List.length_drop]
  omega

theorem lastBytes_of_length_le {length : Nat} {bytes : Bytes} (short : bytes.length ≤ length) :
    lastBytes length bytes = bytes := by
  rw [lastBytes, Nat.sub_eq_zero_of_le short, List.drop_zero]

/-! ## Reading windows off -/

theorem windows_eq_nil {width : Nat} {bytes : Bytes} (short : bytes.length < width) :
    windows width bytes = [] := by
  cases bytes with
  | nil => rfl
  | cons byte rest =>
    have differs : ((byte :: rest).take width).length ≠ width := by
      rw [List.length_take]
      omega
    simp only [windows, if_neg differs]

theorem windows_cons {width : Nat} {byte : UInt8} {rest : Bytes}
    (long : width ≤ (byte :: rest).length) :
    windows width (byte :: rest) = (byte :: rest).take width :: windows width rest := by
  have same : ((byte :: rest).take width).length = width := by
    rw [List.length_take]
    omega
  simp only [windows, if_pos same]

theorem length_of_mem_windows {width : Nat} {bytes window : Bytes}
    (member : window ∈ windows width bytes) : window.length = width := by
  induction bytes with
  | nil => cases member
  | cons byte rest ih =>
    by_cases long : width ≤ (byte :: rest).length
    · rw [windows_cons long] at member
      rcases List.mem_cons.1 member with rfl | later
      · rw [List.length_take]
        omega
      · exact ih later
    · rw [windows_eq_nil (by omega)] at member
      cases member

/-- The windows of a byte string are its infixes of their width. -/
theorem mem_windows_iff {width : Nat} {bytes window : Bytes} (positive : 0 < width) :
    window ∈ windows width bytes ↔ window.length = width ∧ window <:+: bytes := by
  induction bytes with
  | nil =>
    constructor
    · intro member
      cases member
    · rintro ⟨same, inside⟩
      rw [List.infix_nil.1 inside] at same
      exact absurd same (by simp; omega)
  | cons byte rest ih =>
    by_cases long : width ≤ (byte :: rest).length
    · rw [windows_cons long, List.mem_cons, ih, List.infix_cons_iff]
      constructor
      · rintro (rfl | ⟨same, inside⟩)
        · exact ⟨by rw [List.length_take]; omega, .inl (List.take_prefix width _)⟩
        · exact ⟨same, .inr inside⟩
      · rintro ⟨same, first | later⟩
        · exact .inl (by rw [← same]; exact List.prefix_iff_eq_take.1 first)
        · exact .inr ⟨same, later⟩
    · rw [windows_eq_nil (by omega)]
      constructor
      · intro member
        cases member
      · rintro ⟨same, inside⟩
        have shorter := inside.length_le
        omega

/-! ## Cutting -/

/-- Where a byte string is cut, the windows that reach over the cut are found behind the last bytes
of the first part. -/
theorem windows_append (overlap : Nat) (first second : Bytes) :
    windows (overlap + 1) (first ++ second) =
      windows (overlap + 1) first ++ windows (overlap + 1) (lastBytes overlap first ++ second) := by
  induction first with
  | nil => simp [lastBytes, windows]
  | cons byte rest ih =>
    by_cases long : overlap + 1 ≤ (byte :: rest).length
    · -- The first window lies in the first part, and the last bytes do not reach back to its start.
      have fits : overlap + 1 ≤ (byte :: (rest ++ second)).length := by
        simp only [List.length_cons, List.length_append] at long ⊢
        omega
      have cut : (byte :: (rest ++ second)).take (overlap + 1) =
          (byte :: rest).take (overlap + 1) := by
        rw [← List.cons_append, List.take_append_of_le_length long]
      have last : lastBytes overlap (byte :: rest) = lastBytes overlap rest := by
        have one : (byte :: rest).length - overlap = (rest.length - overlap) + 1 := by
          simp only [List.length_cons] at long ⊢
          omega
        rw [lastBytes, one, List.drop_succ_cons, lastBytes]
      calc
        windows (overlap + 1) (byte :: (rest ++ second))
            = (byte :: rest).take (overlap + 1) :: windows (overlap + 1) (rest ++ second) := by
              rw [windows_cons fits, cut]
        _ = (byte :: rest).take (overlap + 1) :: (windows (overlap + 1) rest ++
              windows (overlap + 1) (lastBytes overlap rest ++ second)) := by rw [ih]
        _ = windows (overlap + 1) (byte :: rest) ++
              windows (overlap + 1) (lastBytes overlap (byte :: rest) ++ second) := by
              rw [windows_cons long, last, List.cons_append]
    · -- Nothing of the first part is dropped, so all windows are left to the second part.
      have short : (byte :: rest).length < overlap + 1 := Nat.lt_of_not_le long
      rw [windows_eq_nil short, lastBytes_of_length_le (Nat.le_of_lt_succ short), List.nil_append]

end Bytes

end GramCensus
