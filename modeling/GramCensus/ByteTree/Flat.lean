import GramCensus.ByteTable
import GramCensus.ByteTree.Basic

/-!
# Flat trees

The flat form of a byte tree keeps all nodes in one array, breadth-first from the root, and refers
to children by position: the children of a node follow each other, by ascending byte. A node that has
a table gets one with an entry per byte value beside the array. A copy needs no adjustment.
-/

namespace GramCensus

/-- A node of a flat tree. -/
structure FlatNode where
  byte : UInt8
  fanOut : Nat
  value : UInt32
  /-- The position of the first child. -/
  firstChild : Nat
  /-- The number of the node's table, counted from one, or zero for none. -/
  table : Nat
  deriving DecidableEq, Repr, Inhabited

/-- A byte tree in flat form. An entry of a table is one more than the child's position, or zero
for no child. -/
structure FlatTree where
  nodes : Array FlatNode
  tables : Array Nat
  deriving DecidableEq, Repr

namespace ByteTree

mutual
/-- The number of nodes of a tree. -/
def nodeCount : ByteTree → Nat
  | .node _ _ _ children => nodeCountIn children + 1

/-- The number of nodes of some trees. -/
def nodeCountIn : List ByteTree → Nat
  | [] => 0
  | child :: rest => nodeCount child + nodeCountIn rest
end

theorem nodeCountIn_append (first second : List ByteTree) :
    nodeCountIn (first ++ second) = nodeCountIn first + nodeCountIn second := by
  induction first with
  | nil => simp [nodeCountIn]
  | cons tree first ih => simp [nodeCountIn, ih, Nat.add_assoc]

end ByteTree

namespace FlatTree

/-! ## Flattening -/

/-- The table of a node whose children stand from `firstChild` on. -/
def childTable (firstChild : Nat) (children : List ByteTree) : Array Nat :=
  byteTable 0 (firstChild + · + 1) (children.map ByteTree.byte)

/-- The node of a tree whose children have no places yet. -/
def unplaced (tree : ByteTree) : FlatNode where
  byte := tree.byte
  fanOut := 0
  value := tree.value
  firstChild := 0
  table := 0

/-- Places the children of a tree, whose own node stands at a position, behind all other nodes. -/
def placeChildren (flat : FlatTree) (tree : ByteTree) (position : Nat) : FlatTree :=
  let firstChild := flat.nodes.size
  let table := if tree.wide then flat.tables.size / 256 + 1 else 0
  { nodes := (flat.nodes.modify position fun node =>
      { node with fanOut := tree.children.length, firstChild, table }) ++
        (tree.children.map unplaced).toArray
    tables := if tree.wide then flat.tables ++ childTable firstChild tree.children
      else flat.tables }

/-- Places what is below the trees of a queue, each beside the position of its node, and lines their
children up behind them. -/
def place : (queue : List (ByteTree × Nat)) → FlatTree → FlatTree
  | [], flat => flat
  | (tree, position) :: queue, flat =>
    place (queue ++ tree.children.zipIdx flat.nodes.size) (flat.placeChildren tree position)
termination_by queue => ByteTree.nodeCountIn (queue.map (·.1))
decreasing_by
  cases tree
  rw [List.map_append, List.zipIdx_map_fst, ByteTree.nodeCountIn_append, List.map_cons,
    ByteTree.nodeCountIn, ByteTree.nodeCount, ByteTree.children]
  omega

/-- The flat form of a byte tree. -/
def ofTree (tree : ByteTree) : FlatTree :=
  place [(tree, 0)] ⟨#[unplaced tree], #[]⟩

/-! ## Looking keys up -/

/-- Looks for a byte among `count` nodes from a position on, up to the first larger byte. -/
def scan (flat : FlatTree) (byte : UInt8) : (count : Nat) → (position : Nat) → Option Nat
  | 0, _ => none
  | count + 1, position =>
    let found := (flat.nodes.getD position default).byte
    if found = byte then some position
    else if byte < found then none
    else flat.scan byte count (position + 1)

/-- The position of the child of a node for a byte. -/
def child? (flat : FlatTree) (position : Nat) (byte : UInt8) : Option Nat :=
  let node := flat.nodes.getD position default
  if node.table = 0 then flat.scan byte node.fanOut node.firstChild
  else match flat.tables.getD ((node.table - 1) * 256 + byte.toNat) 0 with
    | 0 => none
    | child + 1 => some child

/-- The position reached from a position along a key, or the depth and the byte at which the key
leaves the tree; `depth` is the depth of the start. -/
def locate (flat : FlatTree) : (depth position : Nat) → Bytes → Except Failure Nat
  | _, position, [] => .ok position
  | depth, position, byte :: rest =>
    match flat.child? position byte with
    | none => .error (.missingChild depth byte)
    | some child => flat.locate (depth + 1) child rest

/-- The number of a key that ends in a leaf. -/
def search (flat : FlatTree) (key : Bytes) : Option UInt32 :=
  match flat.locate 0 0 key with
  | .error _ => none
  | .ok position =>
    let node := flat.nodes.getD position default
    if node.fanOut = 0 then some node.value else none

/-- Sets the number of the node at the end of a key, an inner node's too. Never adds a node. -/
def set (flat : FlatTree) (key : Bytes) (value : UInt32) : Except Failure FlatTree :=
  match flat.locate 0 0 key with
  | .error failure => .error failure
  | .ok position =>
    .ok { flat with nodes := flat.nodes.modify position fun node => { node with value } }

/-! ## Sizes -/

/-- The number of leaves below the root. -/
def size (flat : FlatTree) : Nat :=
  (flat.nodes.toList.drop 1).countP fun node => node.fanOut == 0

/-- There is no node but the root. -/
def isEmpty (flat : FlatTree) : Bool :=
  flat.nodes.size == 1

/-- Sixteen bytes per node and four per table entry. -/
def footprint (flat : FlatTree) : Nat :=
  flat.nodes.size * 16 + flat.tables.size * 4

end FlatTree

end GramCensus
