import GramCensus.ByteTable
import Mathlib.Data.List.Basic

/-!
# What a table by byte value holds

A table over bytes that are all different holds the entry of each of them at its place, and blanks at
all other places (`getElem?_byteTable`).
-/

namespace GramCensus

variable {α : Type}

/-- Filling a table in puts the entries at their bytes and leaves the rest as it was. -/
private theorem getElem?_foldl_setIfInBounds {bytes : List UInt8} (distinct : bytes.Nodup)
    (entry : Nat → α) (k : Nat) {table : Array α} (size : table.size = 256) (byte : UInt8) :
    ((bytes.zipIdx k).foldl (fun table (place : UInt8 × Nat) =>
        table.setIfInBounds place.1.toNat (entry place.2)) table)[byte.toNat]? =
      if byte ∈ bytes then some (entry (k + bytes.idxOf byte)) else table[byte.toNat]? := by
  induction bytes generalizing k table with
  | nil => simp
  | cons first bytes ih =>
    rcases List.nodup_cons.1 distinct with ⟨absent, distinctRest⟩
    rw [List.zipIdx_cons, List.foldl_cons, ih distinctRest (k + 1) (by simp [size])]
    -- The bytes behind write to other places, as no byte occurs twice.
    by_cases same : byte = first
    · subst same
      have inside : byte.toNat < table.size := by
        rw [size]
        exact byte.toNat_lt
      simp [absent, inside]
    · have apart : first.toNat ≠ byte.toNat := fun eq => same (UInt8.toNat_inj.1 eq).symm
      have other : (first == byte) = false := by simpa using Ne.symm same
      simp only [List.mem_cons, same, false_or, List.idxOf_cons, other, cond_false,
        Array.getElem?_setIfInBounds_ne apart]
      split
      · congr 2
        omega
      · rfl

/-- A table holds the entries of its bytes, and blanks elsewhere. -/
theorem getElem?_byteTable {bytes : List UInt8} (distinct : bytes.Nodup) (blank : α)
    (entry : Nat → α) (byte : UInt8) :
    (byteTable blank entry bytes)[byte.toNat]? =
      some (if byte ∈ bytes then entry (bytes.idxOf byte) else blank) := by
  have filled := getElem?_foldl_setIfInBounds distinct entry 0
    (show (Array.replicate 256 blank).size = 256 by simp) byte
  rw [byteTable]
  refine filled.trans ?_
  split
  · simp
  · rw [Array.getElem?_replicate, if_pos byte.toNat_lt]

@[simp] theorem size_byteTable (blank : α) (entry : Nat → α) (bytes : List UInt8) :
    (byteTable blank entry bytes).size = 256 := by
  refine @List.foldlRecOn _ _ (fun table : Array α => table.size = 256) _ _ _
    Array.size_replicate fun table size place member => ?_
  rwa [Array.size_setIfInBounds]

end GramCensus
