import GramCensus.Failure

/-!
# Byte trees

A byte tree maps keys of one length to numbers. Its shape is fixed when it is built; afterwards
only the numbers change. The operations follow a key from the root: `node?` to any node on the way,
`get?` to a leaf alone, and `adjust` to a node whose number it replaces. Each step looks a child up by
its byte, in the node's table if it has one and otherwise along its children.
-/

namespace GramCensus

/-- A node with the byte on the edge into it, its number, and its children by ascending byte. A node
with many children also has a table, which has the position of a child, if there is one, for every
byte value. -/
inductive ByteTree where
  | node (byte : UInt8) (value : UInt32) (table : Option (Array (Option Nat)))
      (children : List ByteTree)
  deriving Inhabited

namespace ByteTree

/-! ## Equality -/

mutual
/-- Two trees are compared node by node. -/
def decideEq : (s t : ByteTree) → Decidable (s = t)
  | .node byte value table children, .node byte' value' table' children' =>
    if top : byte = byte' ∧ value = value' ∧ table = table' then
      match decideEqIn children children' with
      | isTrue below => isTrue (by rw [top.1, top.2.1, top.2.2, below])
      | isFalse differ => isFalse fun same => differ (by injection same)
    else isFalse fun same => top (by injection same with b v t _; exact ⟨b, v, t⟩)

/-- Two lists of trees are compared tree by tree. -/
def decideEqIn : (ss ts : List ByteTree) → Decidable (ss = ts)
  | [], [] => isTrue rfl
  | [], _ :: _ => isFalse nofun
  | _ :: _, [] => isFalse nofun
  | s :: ss, t :: ts =>
    match decideEq s t with
    | isFalse differ => isFalse fun same => differ (by injection same)
    | isTrue first =>
      match decideEqIn ss ts with
      | isTrue rest => isTrue (by rw [first, rest])
      | isFalse differ => isFalse fun same => differ (by injection same)
end

instance : DecidableEq ByteTree := decideEq

/-! ## Nodes -/

def byte : ByteTree → UInt8
  | .node byte _ _ _ => byte

def value : ByteTree → UInt32
  | .node _ value _ _ => value

def table : ByteTree → Option (Array (Option Nat))
  | .node _ _ table _ => table

def children : ByteTree → List ByteTree
  | .node _ _ _ children => children

/-- A node with a table. -/
def wide (tree : ByteTree) : Bool :=
  tree.table.isSome

/-- A node without children. -/
def isLeaf (tree : ByteTree) : Bool :=
  tree.children.isEmpty

/-- The node with another number. -/
def setValue (tree : ByteTree) (value : UInt32) : ByteTree :=
  match tree with
  | .node byte _ table children => .node byte value table children

/-- The tree without keys. -/
def empty : ByteTree :=
  .node 0 0 none []

/-! ## Looking keys up -/

/-- The position of the first of some nodes whose byte is the one looked for, up to the first larger
byte; the first node stands at `position`. -/
def positionIn? (byte : UInt8) (position : Nat) : List ByteTree → Option Nat
  | [] => none
  | child :: rest =>
    if child.byte = byte then some position
    else if byte < child.byte then none
    else positionIn? byte (position + 1) rest

/-- The position of the child for a byte. -/
def childPosition? (tree : ByteTree) (byte : UInt8) : Option Nat :=
  match tree.table with
  | some table => table.getD byte.toNat none
  | none => positionIn? byte 0 tree.children

/-- The child for a byte. -/
def step? (tree : ByteTree) (byte : UInt8) : Option ByteTree :=
  (tree.childPosition? byte).bind fun position => tree.children[position]?

/-- The node at the end of a key. -/
def node? (tree : ByteTree) : Bytes → Option ByteTree
  | [] => some tree
  | byte :: rest => (tree.step? byte).bind fun child => child.node? rest

/-- The leaf at the end of a key. -/
def leaf? (tree : ByteTree) (key : Bytes) : Option ByteTree :=
  (tree.node? key).filter isLeaf

/-- The number of a key. -/
def get? (tree : ByteTree) (key : Bytes) : Option UInt32 :=
  (tree.leaf? key).map value

/-! ## Changing numbers -/

/-- The node with another child in the place of the one for a byte. -/
def setChild (tree : ByteTree) (byte : UInt8) (changed : ByteTree) : ByteTree :=
  match tree.childPosition? byte, tree with
  | none, tree => tree
  | some position, .node top value table children =>
    .node top value table (children.set position changed)

/-- Changes the number of the node at the end of a key, an inner node's too. A key that leaves the
tree fails with the depth and the byte at which it does; `depth` is the depth of the tree's root. -/
def adjustFrom (change : UInt32 → UInt32) (depth : Nat) (tree : ByteTree) :
    Bytes → Except Failure ByteTree
  | [] => .ok (tree.setValue (change tree.value))
  | byte :: rest =>
    match tree.step? byte with
    | none => .error (.missingChild depth byte)
    | some child =>
      match adjustFrom change (depth + 1) child rest with
      | .error failure => .error failure
      | .ok changed => .ok (tree.setChild byte changed)

/-- Changes the number of the node at the end of a key. Never adds a node. -/
def adjust (change : UInt32 → UInt32) (tree : ByteTree) (key : Bytes) : Except Failure ByteTree :=
  adjustFrom change 0 tree key

/-- Sets the number at a key. -/
def set (tree : ByteTree) (key : Bytes) (value : UInt32) : Except Failure ByteTree :=
  tree.adjust (fun _ => value) key

/-- Adds one to the number at a key, which wraps at `2 ^ 32`, and returns the new number. -/
def increment (tree : ByteTree) (key : Bytes) : Except Failure (ByteTree × UInt32) :=
  (tree.adjust (· + 1) key).map fun changed =>
    (changed, ((changed.node? key).map value).getD 0)

/-- Sets the number of the node at the end of a key, an inner node's too, if there is one. -/
def setNode? (tree : ByteTree) (key : Bytes) (value : UInt32) : Option ByteTree :=
  (tree.set key value).toOption

/-- Sets the number of the leaf at the end of a key, if there is one. -/
def setLeaf? (tree : ByteTree) (key : Bytes) (value : UInt32) : Option ByteTree :=
  if (tree.leaf? key).isSome then tree.setNode? key value else none

/-! ## Listing keys -/

/-- Walks trees depth-first, and lists the keys with their numbers. The stack holds the nodes that are
still to be visited, those of the greatest depth first. The key that leads to the node visited last is
cut back to where the next one branches off. -/
def walk : (stack : List (List ByteTree)) → (key : Bytes) → List (Bytes × UInt32)
  | [], _ => []
  | [] :: stack, key => walk stack key
  | (.node byte value _ children :: siblings) :: stack, key =>
    let here := key.take stack.length ++ [byte]
    if children.isEmpty then (here, value) :: walk (siblings :: stack) here
    else walk (children :: siblings :: stack) here

/-- The keys with their numbers, by ascending key. -/
def toList (tree : ByteTree) : List (Bytes × UInt32) :=
  walk [tree.children] []

/-- The keys, ascending. -/
def keys (tree : ByteTree) : List Bytes :=
  tree.toList.map (·.1)

/-- The numbers, by ascending key. -/
def values (tree : ByteTree) : List UInt32 :=
  tree.toList.map (·.2)

/-- The number of keys. -/
def size (tree : ByteTree) : Nat :=
  tree.toList.length

mutual
/-- Changes the numbers of the leaves below a node, or of the node itself if it is a leaf, in their
order; `visited` leaves come before them. Returns how many then come before the next one. -/
def changeLeaves (change : Nat → UInt32 → UInt32) (visited : Nat) : ByteTree → ByteTree × Nat
  | .node byte value table children =>
    if children.isEmpty then (.node byte (change visited value) table children, visited + 1)
    else
      let below := changeLeavesIn change visited children
      (.node byte value table below.1, below.2)

/-- Changes the numbers of the leaves of some nodes. -/
def changeLeavesIn (change : Nat → UInt32 → UInt32) (visited : Nat) :
    List ByteTree → List ByteTree × Nat
  | [] => ([], visited)
  | child :: rest =>
    let first := changeLeaves change visited child
    let others := changeLeavesIn change first.2 rest
    (first.1 :: others.1, others.2)
end

/-- Changes the number of every key, depending on how many keys come before it. -/
def changeValues (tree : ByteTree) (change : Nat → UInt32 → UInt32) : ByteTree :=
  match tree with
  | .node byte value table children =>
    .node byte value table (changeLeavesIn change 0 children).1

/-- Changes the number of every key. -/
def mapValues (tree : ByteTree) (change : UInt32 → UInt32) : ByteTree :=
  tree.changeValues fun _ => change

mutual
/-- The number of edges from a node down to its first leaf. -/
def firstLeafDepth : ByteTree → Nat
  | .node _ _ _ children => firstLeafDepthIn children

/-- One more than the depth of the first leaf below the first of some nodes; zero without nodes. -/
def firstLeafDepthIn : List ByteTree → Nat
  | [] => 0
  | child :: _ => firstLeafDepth child + 1
end

/-- The length of the keys. -/
def keyLength (tree : ByteTree) : Nat :=
  tree.firstLeafDepth

/-! ## Texts -/

/-- The hexadecimal keys, each at the position that its number says; positions that no key has
stay empty, and of two keys with one number the larger one is kept. -/
def gramTexts (tree : ByteTree) : List (List Char) :=
  match tree.values.max? with
  | none => []
  | some largest =>
    (tree.toList.foldl (fun texts (key, value) => texts.setIfInBounds value.toNat (Bytes.hex key))
      (Array.replicate (largest.toNat + 1) [])).toList

/-- One hexadecimal key per line, ascending. -/
def display (tree : ByteTree) : List Char :=
  tree.keys.flatMap fun key => Bytes.hex key ++ ['\n']

end ByteTree

end GramCensus
