import GramCensus.GramTable

/-!
# Rank arrangement of stems

Before a rank trie is laid out, its stems are arranged: at every depth the stems that continue
with the same byte are brought together, the heaviest of these branches first and, of equally heavy
ones, the smaller byte first. The same walk computes the sizes of the arrays that the trie will
need, and finds a stem that occurs twice.
-/

namespace GramCensus

/-! ## Branches -/

/-- All byte values, ascending. -/
def allBytes : List UInt8 :=
  (List.range 256).map Nat.toUInt8

/-- The byte of an entry's n-gram at a depth; zero past its end. -/
def Entry.byteAt (depth : Nat) (e : Entry) : UInt8 :=
  e.gram.getD depth 0

/-- The sum of the counts of some entries. -/
def totalCount (entries : List Entry) : Nat :=
  sumOf (entries.map (·.count.toNat))

/-- The entries that continue with one byte, in the order they came in, and their total count. -/
structure Branch where
  byte : UInt8
  entries : List Entry
  weight : Nat

/-- The entries that have a byte at a depth. -/
def sharing (depth : Nat) (entries : List Entry) (byte : UInt8) : List Entry :=
  entries.filter fun e => e.byteAt depth == byte

/-- The branches of some entries at a depth, by ascending byte. -/
def branches (depth : Nat) (entries : List Entry) : List Branch :=
  allBytes.filterMap fun byte =>
    let group := sharing depth entries byte
    if group.isEmpty then none else some ⟨byte, group, totalCount group⟩

/-- The branches of some entries at a depth in rank order: the heaviest first, of equally heavy
ones the smaller byte first. -/
def rankedBranches (depth : Nat) (entries : List Entry) : List Branch :=
  stableSort (fun a b => b.weight ≤ a.weight) (branches depth entries)

/-! ## Arranging -/

/-- The number of fan-outs from which on a node gets a table of 256 child slots, and the number of
slots that a node with `fanOut` children takes. -/
def segmentLength (threshold fanOut : Nat) : Nat :=
  if threshold ≤ fanOut then 256 else fanOut

/-- Entries as far as they were arranged, the numbers of trie nodes and of child slots found on
the way, and the stem at which arranging stopped because it occurs twice. -/
structure Arrangement where
  entries : List Entry
  nodes : Nat
  slots : Nat
  repeated : Option Bytes

/-- Arranges groups one after the other, up to the first that holds a repeated stem; the groups
behind it stay as they are. -/
def arrangeInTurn (arrangeGroup : List Entry → Arrangement) : List (List Entry) → Arrangement
  | [] => ⟨[], 0, 0, none⟩
  | group :: groups =>
    let first := arrangeGroup group
    match first.repeated with
    | some stem => { first with entries := first.entries ++ groups.flatten, repeated := some stem }
    | none =>
      let others := arrangeInTurn arrangeGroup groups
      { entries := first.entries ++ others.entries
        nodes := first.nodes + others.nodes
        slots := first.slots + others.slots
        repeated := others.repeated }

/-- Arranges entries whose n-grams have `remaining` bytes from `depth` on. At the last byte a
branch of two entries is a repeated stem, which is found before anything is moved. -/
def arrange (threshold : Nat) : (remaining depth : Nat) → List Entry → Arrangement
  | 0, _, entries => ⟨entries, 0, 0, none⟩
  | 1, depth, entries =>
    let ranked := rankedBranches depth entries
    match ranked.find? fun branch => 1 < branch.entries.length with
    | some branch => ⟨entries, 0, 0, branch.entries.head?.map (·.gram)⟩
    | none =>
      { entries := ranked.flatMap (·.entries)
        nodes := ranked.length
        slots := segmentLength threshold ranked.length
        repeated := none }
  | remaining + 1, depth, entries =>
    let ranked := rankedBranches depth entries
    let below := arrangeInTurn (arrange threshold remaining (depth + 1)) (ranked.map (·.entries))
    { below with
      nodes := ranked.length + below.nodes
      slots := segmentLength threshold ranked.length + below.slots }

/-! ## Nothing foreign comes in -/

theorem mem_of_mem_rankedBranches {depth : Nat} {entries : List Entry} {branch : Branch} {e : Entry}
    (ranked : branch ∈ rankedBranches depth entries) (member : e ∈ branch.entries) :
    e ∈ entries := by
  rw [rankedBranches, mem_stableSort, branches, List.mem_filterMap] at ranked
  obtain ⟨byte, -, found⟩ := ranked
  dsimp only at found
  split at found
  · cases found
  · cases found
    exact (List.mem_filter.1 member).1

theorem mem_of_mem_arrangeInTurn {arrangeGroup : List Entry → Arrangement}
    (keeps : ∀ group, ∀ e ∈ (arrangeGroup group).entries, e ∈ group)
    {groups : List (List Entry)} {e : Entry}
    (member : e ∈ (arrangeInTurn arrangeGroup groups).entries) : e ∈ groups.flatten := by
  induction groups with
  | nil => simp [arrangeInTurn] at member
  | cons group groups ih =>
    rw [List.flatten_cons, List.mem_append]
    rw [arrangeInTurn] at member
    split at member
    · rcases List.mem_append.1 member with first | later
      · exact .inl (keeps group e first)
      · exact .inr later
    · rcases List.mem_append.1 member with first | later
      · exact .inl (keeps group e first)
      · exact .inr (ih later)

theorem mem_of_mem_arrange {threshold remaining depth : Nat} {entries : List Entry} {e : Entry}
    (member : e ∈ (arrange threshold remaining depth entries).entries) : e ∈ entries := by
  induction remaining generalizing depth entries e with
  | zero => exact member
  | succ remaining ih =>
    cases remaining with
    | zero =>
      rw [arrange] at member
      split at member
      · exact member
      · obtain ⟨branch, ranked, inside⟩ := List.mem_flatMap.1 member
        exact mem_of_mem_rankedBranches ranked inside
    | succ remaining =>
      have inside := mem_of_mem_arrangeInTurn (fun _ _ found => ih found) member
      obtain ⟨group, listed, found⟩ := List.mem_flatten.1 inside
      obtain ⟨branch, ranked, rfl⟩ := List.mem_map.1 listed
      exact mem_of_mem_rankedBranches ranked found

end GramCensus
