import GramCensus.Bytes

/-!
# Bytes as text

`Bytes.text` reads bytes as UTF-8. Bytes that are no part of a character are replaced: each longest
run of bytes that could begin a character, and each byte that could not, becomes one replacement
character.
-/

namespace GramCensus
namespace Bytes

/-! ## Characters of several bytes -/

/-- A character whose first bytes were read: how many bytes are missing, between which bounds the
next one lies, and the bits of the number so far. -/
structure Unfinished where
  missing : Nat
  low : UInt8
  high : UInt8
  bits : Nat
  deriving DecidableEq, Repr

/-- What the first byte of a longer character says. The bounds of the second byte leave no
character that has a shorter form, no surrogate, and nothing above the last character. -/
def unfinished? (byte : UInt8) : Option Unfinished :=
  if byte < 0xc2 then none
  else if byte < 0xe0 then some ⟨1, 0x80, 0xbf, byte.toNat % 32⟩
  else if byte = 0xe0 then some ⟨2, 0xa0, 0xbf, 0⟩
  else if byte = 0xed then some ⟨2, 0x80, 0x9f, 13⟩
  else if byte < 0xf0 then some ⟨2, 0x80, 0xbf, byte.toNat % 16⟩
  else if byte = 0xf0 then some ⟨3, 0x90, 0xbf, 0⟩
  else if byte < 0xf4 then some ⟨3, 0x80, 0xbf, byte.toNat % 8⟩
  else if byte = 0xf4 then some ⟨3, 0x80, 0x8f, 4⟩
  else none

/-- Stands for bytes that are no part of a character. -/
def replacement : Char := '\ufffd'

/-! ## Reading byte by byte -/

/-- Reads a byte that does not go on with a character: what it completes, and what it begins. -/
def beginChar (byte : UInt8) : List Char × Option Unfinished :=
  if byte < 0x80 then ([Char.ofNat byte.toNat], none)
  else match unfinished? byte with
    | some begun => ([], some begun)
    | none => ([replacement], none)

/-- Reads a byte behind a character that is perhaps unfinished. -/
def readByte : Option Unfinished → UInt8 → List Char × Option Unfinished
  | none, byte => beginChar byte
  | some begun, byte =>
    if begun.low ≤ byte ∧ byte ≤ begun.high then
      let bits := begun.bits * 64 + byte.toNat % 64
      if begun.missing ≤ 1 then ([Char.ofNat bits], none)
      else ([], some ⟨begun.missing - 1, 0x80, 0xbf, bits⟩)
    else
      let (chars, next) := beginChar byte
      (replacement :: chars, next)

/-- The text of bytes behind a character that is perhaps unfinished. -/
def textFrom : Option Unfinished → Bytes → List Char
  | none, [] => []
  | some _, [] => [replacement]
  | begun, byte :: rest =>
    let (chars, next) := readByte begun byte
    chars ++ textFrom next rest

/-- The text of bytes in UTF-8. -/
def text (bytes : Bytes) : List Char :=
  textFrom none bytes

end Bytes
end GramCensus
