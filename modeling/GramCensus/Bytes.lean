/-!
# Byte strings

Keys, n-grams and file contents are byte strings. This module holds their hexadecimal form, the
reading of that form back, and the windows of a byte string: the n-grams that start at each of
its positions.
-/

namespace GramCensus

/-- A byte string: a key, an n-gram, or the contents of a file. -/
abbrev Bytes := List UInt8

namespace Bytes

/-! ## Hexadecimal form -/

/-- The lowercase hexadecimal digit of a value below sixteen. -/
def hexDigit (value : Nat) : Char :=
  if value < 10 then Char.ofNat (48 + value) else Char.ofNat (87 + value)

/-- The value of a lowercase hexadecimal digit. -/
def hexValue? (digit : Char) : Option Nat :=
  if '0' ≤ digit ∧ digit ≤ '9' then some (digit.toNat - 48)
  else if 'a' ≤ digit ∧ digit ≤ 'f' then some (digit.toNat - 87)
  else none

/-- Two lowercase digits per byte, high half first. -/
def hex (bytes : Bytes) : List Char :=
  bytes.flatMap fun byte => [hexDigit (byte.toNat / 16), hexDigit (byte.toNat % 16)]

/-- The hexadecimal form as a text. -/
def hexText (bytes : Bytes) : String :=
  String.ofList (hex bytes)

/-- Reads the hexadecimal form back. A digit without a partner and a character that is no
lowercase digit are refused. -/
def ofHex? : List Char → Option Bytes
  | [] => some []
  | [_] => none
  | high :: low :: rest => do
    let upper ← hexValue? high
    let lower ← hexValue? low
    let others ← ofHex? rest
    return (16 * upper + lower).toUInt8 :: others

/-! ## Windows -/

/-- The runs of `width` consecutive bytes, in the order of their first positions, for a positive
`width`. -/
def windows (width : Nat) : Bytes → List Bytes
  | [] => []
  | byte :: rest =>
    let window := (byte :: rest).take width
    if window.length = width then window :: windows width rest else []

end Bytes

/-- The bytes of a text of ASCII characters. -/
def asciiBytes (text : List Char) : Bytes :=
  text.map fun c => c.toNat.toUInt8

end GramCensus
