import GramCensus.Failure

/-!
# Room in memory

The items of a list stand in memory one behind the other, and no piece of memory is larger than
`mostBytes`. A list that would need more is refused before its first item is there. What fits into
one piece can still be more than the machine has (`Memory`).

Main statements:
- `makeRoom_eq_ok_iff`: items are accepted exactly if they have room;
- `makeRoom_eq_noRoom_iff`: which of the two refusals comes is a matter of `mostBytes` alone.
-/

namespace GramCensus

/-- The most bytes of one piece of memory. -/
def mostBytes : Nat := (1 <<< 63) - 1

/-- What becomes of a piece of memory at first. -/
inductive MemoryUse where
  /-- Nothing is written to it, so that it takes addresses only. -/
  | untouched
  /-- All of it is written to. -/
  | filled
  deriving DecidableEq, Repr

/-- The memory of a machine: the most bytes that can be had of it in one piece. -/
class Memory where
  limit : MemoryUse → Nat
  limit_le_mostBytes (use : MemoryUse) : limit use ≤ mostBytes

/-- Memory of which every piece can be had. -/
@[reducible]
def Memory.whole : Memory where
  limit _ := mostBytes
  limit_le_mostBytes _ := Nat.le_refl mostBytes

variable [Memory]

/-- Whether memory for a number of items, each of some bytes, can be had. -/
def hasRoom (use : MemoryUse) (items itemBytes : Nat) : Bool :=
  items * itemBytes ≤ Memory.limit use

/-- Refuses items that cannot stand in one piece of memory, or for which none is left. -/
def makeRoom (use : MemoryUse) (items itemBytes : Nat) : Except Failure Unit :=
  if hasRoom use items itemBytes then .ok ()
  else if items * itemBytes ≤ mostBytes then .error .exhausted
  else .error .noRoom

variable {use : MemoryUse} {items itemBytes bytes : Nat}

/-- Single bytes have room if they are not too many. -/
theorem hasRoom_bytes : hasRoom use bytes 1 = true ↔ bytes ≤ Memory.limit use := by
  simp [hasRoom]

/-- Items are accepted exactly if they have room. -/
theorem makeRoom_eq_ok_iff :
    makeRoom use items itemBytes = .ok () ↔ hasRoom use items itemBytes = true := by
  unfold makeRoom
  split
  case isTrue room => simp [room]
  case isFalse crowded => split <;> simp [crowded]

/-- Items are accepted or refused in one of two ways. -/
theorem makeRoom_cases (use : MemoryUse) (items itemBytes : Nat) :
    makeRoom use items itemBytes = .ok () ∨ makeRoom use items itemBytes = .error .exhausted ∨
      makeRoom use items itemBytes = .error .noRoom := by
  unfold makeRoom
  split
  · exact .inl rfl
  · split
    · exact .inr (.inl rfl)
    · exact .inr (.inr rfl)

/-- Items are too many for one piece of memory exactly if their bytes are more than `mostBytes`. -/
theorem makeRoom_eq_noRoom_iff :
    makeRoom use items itemBytes = .error .noRoom ↔ mostBytes < items * itemBytes := by
  have below := Memory.limit_le_mostBytes use
  unfold makeRoom hasRoom
  split
  case isTrue room =>
    have room : items * itemBytes ≤ Memory.limit use := by simpa using room
    simp
    omega
  case isFalse =>
    split
    case isTrue fits => simp [fits]
    case isFalse large => simpa using large

end GramCensus
