import GramCensus.ByteTable
import GramCensus.RankTrie.Arrangement

/-!
# Breadth-first layout

Arranged stems are laid out as a trie in four flat arrays. Nodes are numbered breadth-first from
the root, number zero, and siblings are numbered in rank order. Each inner node owns a segment of
the child slots: a table with one slot per byte value where its fan-out reaches the threshold, and
otherwise its children in the order of their bytes.
-/

namespace GramCensus

/-! ## Runs -/

/-- A run of consecutive stems below one node: the position of the first, and what is left of
each stem from the node's depth on. -/
structure Run where
  start : Nat
  tails : List Bytes
  deriving DecidableEq, Repr

/-- Splits what is left of consecutive stems, the first at position `start`, into the runs that
share their next byte. -/
def splitRuns : Nat → List Bytes → List (UInt8 × Run)
  | _, [] => []
  | start, [] :: rest => splitRuns (start + 1) rest
  | start, (byte :: tail) :: rest =>
    match splitRuns (start + 1) rest with
    | [] => [(byte, ⟨start, [tail]⟩)]
    | (next, run) :: more =>
      if byte = next then (byte, ⟨start, tail :: run.tails⟩) :: more
      else (byte, ⟨start, [tail]⟩) :: (next, run) :: more

/-! ## The arrays -/

/-- The arrays of a rank trie. Per node: the byte on the edge into it, its fan-out, and its link,
which is the offset of an inner node's segment and the number of a leaf's stem. A child slot holds
the number of a node, or zero for no child. -/
structure Layout where
  edges : Array UInt8
  fanOuts : Array Nat
  links : Array Nat
  slots : Array Nat
  deriving DecidableEq, Repr

namespace Layout

/-- The root alone, its children not placed yet. -/
def start : Layout where
  edges := #[0]
  fanOuts := #[]
  links := #[]
  slots := #[]

/-- A table with the child number of every byte value, zero where there is no child. The children
are numbered from `first` on in the order of the list. -/
def tableSegment (first : Nat) (children : List UInt8) : Array Nat :=
  byteTable 0 (first + ·) children

/-- The children's numbers by ascending byte. -/
def listSegment (first : Nat) (children : List UInt8) : Array Nat :=
  ((stableSort (fun a b => a.1 ≤ b.1) children.zipIdx).map fun (_, i) => first + i).toArray

/-- The segment of a node whose children, in rank order, are numbered from `first` on. -/
def segment (threshold first : Nat) (children : List UInt8) : Array Nat :=
  if threshold ≤ children.length then tableSegment first children else listSegment first children

/-- Places the next inner node in the breadth-first order and numbers its children. -/
def placeNode (threshold : Nat) (layout : Layout) (children : List UInt8) : Layout where
  edges := layout.edges ++ children.toArray
  fanOuts := layout.fanOuts.push children.length
  links := layout.links.push layout.slots.size
  slots := layout.slots ++ segment threshold layout.edges.size children

/-- Places the next leaf in the breadth-first order. -/
def placeLeaf (layout : Layout) (stem : Nat) : Layout where
  edges := layout.edges
  fanOuts := layout.fanOuts.push 0
  links := layout.links.push stem
  slots := layout.slots

/-- Places the nodes of one depth, each above its run, and then all nodes below them. -/
def placeLevels (threshold : Nat) : (remaining : Nat) → List Run → Layout → Layout
  | 0, runs, layout => runs.foldl (fun l run => l.placeLeaf run.start) layout
  | remaining + 1, runs, layout =>
    let split := runs.map fun run => splitRuns run.start run.tails
    placeLevels threshold remaining (split.flatMap fun children => children.map (·.2))
      (split.foldl (fun l children => l.placeNode threshold (children.map (·.1))) layout)

/-- The layout of arranged stems of one length. -/
def ofStems (threshold length : Nat) (stems : List Bytes) : Layout :=
  placeLevels threshold length [⟨0, stems⟩] start

end Layout

end GramCensus
