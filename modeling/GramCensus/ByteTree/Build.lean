import GramCensus.ByteTable
import GramCensus.ByteTree.Basic
import GramCensus.RankTrie.Arrangement

/-!
# Building byte trees

A byte tree is built from n-grams of one length at once. Its leaves are numbered in the order of
their keys. N-grams may share all bytes but the last; two n-grams that end in the same leaf are
refused.
-/

namespace GramCensus

/-- How a byte tree is built from n-grams. -/
structure TreePlan where
  /-- The keys are the n-grams from this byte on. -/
  byteIndex : Nat
  /-- The number of the first key. -/
  firstValue : UInt32
  /-- Nodes with more children than this have a table. -/
  wideAbove : Nat
  deriving DecidableEq, Repr

namespace TreePlan

/-- Whole n-grams, numbered from zero; nodes with more than four children have a table. -/
def usual : TreePlan := ⟨0, 0, 4⟩

end TreePlan

namespace ByteTree

/-- The keys behind a byte, in the order they came in. -/
def tailsBehind (byte : UInt8) (keys : List Bytes) : List Bytes :=
  keys.filterMap fun key =>
    match key with
    | [] => none
    | first :: rest => if first = byte then some rest else none

/-- The keys grouped by their first byte, ascending: each byte that a key starts with, with what is
behind it. -/
def groups (keys : List Bytes) : List (UInt8 × List Bytes) :=
  allBytes.filterMap fun byte =>
    let tails := tailsBehind byte keys
    if tails.isEmpty then none else some (byte, tails)

/-- The table of some children, if there are more of them than `wideAbove`. -/
def tableOf? (wideAbove : Nat) (children : List ByteTree) : Option (Array (Option Nat)) :=
  if wideAbove < children.length then
    some (byteTable none some (children.map byte))
  else none

/-- Builds the nodes for groups of keys one after the other, where each group is numbered from
where the one before it ended. -/
def growInTurn (wideAbove : Nat) (grow : List Bytes → UInt32 → Except Failure (List ByteTree)) :
    List (UInt8 × List Bytes) → UInt32 → Except Failure (List ByteTree)
  | [], _ => .ok []
  | (byte, keys) :: groups, offset =>
    match grow keys offset with
    | .error failure => .error failure
    | .ok children =>
      match growInTurn wideAbove grow groups (offset + keys.length.toUInt32) with
      | .error failure => .error failure
      | .ok others => .ok (.node byte 0 (tableOf? wideAbove children) children :: others)

/-- The children of a node at `depth`, from what is left of the keys below it: `remaining` bytes
each. At the last byte every key must have its own. -/
def grow (wideAbove : Nat) : (remaining depth : Nat) → List Bytes → UInt32 →
    Except Failure (List ByteTree)
  | 0, _, _, _ => .ok []
  | remaining + 1, depth, keys, offset =>
    if remaining = 0 then
      match (groups keys).find? fun group => 1 < group.2.length with
      | some (byte, _) => .error (.duplicateLeaf depth byte)
      | none =>
        .ok ((groups keys).zipIdx.map fun ((byte, _), i) => .node byte (offset + i.toUInt32) none [])
    else growInTurn wideAbove (grow wideAbove remaining (depth + 1)) (groups keys) offset

/-- Cuts a flat run of bytes into `count` pieces of one length. -/
def cutKeys (length : Nat) : (count : Nat) → Bytes → List Bytes
  | 0, _ => []
  | count + 1, bytes => bytes.take length :: cutKeys length count (bytes.drop length)

/-- The keys of a flat run of n-grams: what each n-gram has from the plan's byte on. -/
def keysOf (plan : TreePlan) (grams : Bytes) (length : Nat) : List Bytes :=
  (cutKeys length (grams.length / length) grams).map (·.drop plan.byteIndex)

/-- Builds the tree over a flat run of n-grams that are `length` bytes each. -/
def build (plan : TreePlan) (grams : Bytes) (length : Nat) : Except Failure ByteTree :=
  if length = 0 ∨ grams.length % length ≠ 0 then .error (.keyLength length grams.length)
  else if grams.isEmpty then .ok empty
  else if length ≤ plan.byteIndex then .error (.byteIndex plan.byteIndex length)
  else
    match grow plan.wideAbove (length - plan.byteIndex) plan.byteIndex (keysOf plan grams length)
      plan.firstValue with
    | .error failure => .error failure
    | .ok children => .ok (.node 0 0 (tableOf? plan.wideAbove children) children)

end ByteTree

end GramCensus
