import GramCensus.Bytes

/-!
# Reading hexadecimal forms back

The hexadecimal form of a byte string can be read back: `Bytes.ofHex?_hex`.
-/

namespace GramCensus

namespace Bytes

theorem hexValue?_hexDigit {value : Nat} (small : value < 16) :
    hexValue? (hexDigit value) = some value := by
  revert value
  decide

theorem ofHex?_hex (bytes : Bytes) : ofHex? (hex bytes) = some bytes := by
  induction bytes with
  | nil => rfl
  | cons byte bytes ih =>
    have small := byte.toNat_lt
    have halves : (16 * (byte.toNat / 16) + byte.toNat % 16).toUInt8 = byte := by
      rw [Nat.div_add_mod]
      exact UInt8.ofNat_toNat
    rw [hex, List.flatMap_cons, ← hex, List.cons_append, List.cons_append, List.nil_append, ofHex?,
      hexValue?_hexDigit (by omega), hexValue?_hexDigit (by omega), ih]
    exact congrArg (fun first => some (first :: bytes)) halves

end Bytes

end GramCensus
