import GramCensus.Failure
import GramCensus.Sums
import GramCensus.StableSort

/-!
# Tables of n-grams and counts

A `GramTable` is an ordered list of n-grams of one length, each with a count. It is what a
selection produces and what a rank trie is built from. Entries may repeat. Beside the order of the
table there is its rank order (`rankedPositions`, `ranked`): largest counts first, equal counts in
the order of the table.
-/

namespace GramCensus

/-- An n-gram and its count. -/
structure Entry where
  gram : Bytes
  count : UInt32
  deriving DecidableEq, Repr, Inhabited

/-- A list of n-grams that are all `width` bytes long, with their counts. -/
structure GramTable where
  width : Nat
  entries : List Entry
  uniform : ∀ e ∈ entries, e.gram.length = width
  deriving DecidableEq

namespace GramTable

/-! ## Building a table -/

/-- The table without entries. -/
def empty (width : Nat) : GramTable where
  width
  entries := []
  uniform := by simp

/-- Appends an n-gram, which must have the table's length. -/
def push (table : GramTable) (gram : Bytes) (count : UInt32) : Except Failure GramTable :=
  if same : gram.length = table.width then
    .ok {
      width := table.width
      entries := table.entries ++ [⟨gram, count⟩]
      uniform := by
        intro e member
        rcases List.mem_append.1 member with old | new
        · exact table.uniform e old
        · rw [List.mem_singleton.1 new]; exact same }
  else .error (.keyLength table.width gram.length)

/-- Cuts a flat run of bytes into one n-gram per count. -/
def cut (width : Nat) : List UInt32 → Bytes → List Entry
  | [], _ => []
  | count :: counts, bytes => ⟨bytes.take width, count⟩ :: cut width counts (bytes.drop width)

theorem length_gram_of_mem_cut {width : Nat} {counts : List UInt32} {bytes : Bytes} {e : Entry}
    (length_eq : bytes.length = width * counts.length) (member : e ∈ cut width counts bytes) :
    e.gram.length = width := by
  induction counts generalizing bytes with
  | nil => simp [cut] at member
  | cons count counts ih =>
    rw [List.length_cons, Nat.mul_succ] at length_eq
    rcases List.mem_cons.1 member with first | later
    · subst first
      simp only [List.length_take]
      omega
    · exact ih (by rw [List.length_drop]; omega) later

/-- The table of a flat run of bytes and the counts of its n-grams. -/
def ofFlat (width : Nat) (bytes : Bytes) (counts : List UInt32) : Except Failure GramTable :=
  if fits : bytes.length = width * counts.length then
    .ok {
      width
      entries := cut width counts bytes
      uniform := fun _ => length_gram_of_mem_cut fits }
  else .error (.keyLength (width * counts.length) bytes.length)

/-! ## Reading a table -/

/-- The number of entries. -/
def size (table : GramTable) : Nat :=
  table.entries.length

def isEmpty (table : GramTable) : Bool :=
  table.entries.isEmpty

def get? (table : GramTable) (i : Nat) : Option Entry :=
  table.entries[i]?

/-- All n-grams, one after the other. -/
def bytes (table : GramTable) : Bytes :=
  table.entries.flatMap (·.gram)

def counts (table : GramTable) : List UInt32 :=
  table.entries.map (·.count)

/-- The entries whose n-grams take up bytes, in order. -/
def nonempty (table : GramTable) : List Entry :=
  table.entries.filter fun e => !e.gram.isEmpty

/-- The sum of all counts. -/
def total (table : GramTable) : Nat :=
  sumOf (table.entries.map (·.count.toNat))

/-! ## Rank order -/

/-- The entries with their positions, largest counts first; equal counts stay in order. -/
def ranking (table : GramTable) : List (Entry × Nat) :=
  stableSort (fun a b => b.1.count ≤ a.1.count) table.entries.zipIdx

/-- The positions of the entries, largest counts first; equal counts stay in order. -/
def rankedPositions (table : GramTable) : List Nat :=
  table.ranking.map (·.2)

/-- The entries, largest counts first; equal counts stay in order. -/
def ranked (table : GramTable) : List Entry :=
  table.ranking.map (·.1)

end GramTable

end GramCensus
