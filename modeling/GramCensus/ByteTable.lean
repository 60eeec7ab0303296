import GramCensus.Bytes

/-!
# Tables by byte value

A node with many children keeps a table with an entry for every byte value, so that the child for a
byte is found at once. What the entries are differs from one kind of node to the other.
-/

namespace GramCensus

/-- A table with an entry for every byte value: `entry i` for the byte at place `i` of some bytes, and
`blank` for every other byte. -/
def byteTable {α : Type} (blank : α) (entry : Nat → α) (bytes : List UInt8) : Array α :=
  bytes.zipIdx.foldl (fun table (byte, i) => table.setIfInBounds byte.toNat (entry i))
    (Array.replicate 256 blank)

end GramCensus
