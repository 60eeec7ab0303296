import GramCensus.Failure
import GramCensus.Sums

/-!
# File trees

A file tree holds files, folders, symbolic links and devices under one root, and a working folder
that relative paths start from. `FileTree.locate` follows a path to what it names, links included;
the path it returns consists of folders from the root on and has no links in it.
-/

namespace GramCensus

/-- The name of an entry of a folder. -/
abbrev Name := List Char

/-- A path as it is written, names separated by slashes. -/
abbrev Path := List Char

/-- What a device does with bytes that are written to it. -/
inductive Device where
  /-- Swallows them. -/
  | sink
  /-- Has no place for any. -/
  | full
  deriving DecidableEq, Repr

/-- What stands under a name. -/
inductive FileNode where
  | file (data : Bytes)
  | folder (entries : List (Name × FileNode))
  | link (target : Path)
  | device (kind : Device)
  deriving Inhabited

namespace FileNode

/-- An entry of a folder. -/
def entry? (node : FileNode) (name : Name) : Option FileNode :=
  match node with
  | .folder entries => entries.lookup name
  | _ => none

/-- What stands at the end of some names, without following links. -/
def node? (node : FileNode) : List Name → Option FileNode
  | [] => some node
  | name :: rest => (node.entry? name).bind fun child => child.node? rest

def isFolder : FileNode → Bool
  | .folder _ => true
  | _ => false

/-- Puts an entry in the place of the one with its name, or behind all others. -/
def putEntry (name : Name) (node : FileNode) : List (Name × FileNode) → List (Name × FileNode)
  | [] => [(name, node)]
  | (other, old) :: rest =>
    if other = name then (name, node) :: rest else (other, old) :: putEntry name node rest

/-- Puts a node at the end of some names. Folders on the way that are missing are made; a name
below anything but a folder changes nothing. -/
def put : (node : FileNode) → List Name → (new : FileNode) → FileNode
  | _, [], new => new
  | .folder entries, name :: rest, new =>
    .folder (putEntry name (put ((entries.lookup name).getD (.folder [])) rest new) entries)
  | other, _ :: _, _ => other

/-- Takes away what stands at the end of some names. -/
def erase : (node : FileNode) → List Name → FileNode
  | .folder entries, [name] => .folder (entries.filter fun (other, _) => other != name)
  | .folder entries, name :: next :: rest =>
    match entries.lookup name with
    | none => .folder entries
    | some child => .folder (putEntry name (erase child (next :: rest)) entries)
  | node, _ => node

end FileNode

/-- Files, folders, links and devices below a root, and the names on the way to the working
folder. -/
structure FileTree where
  root : FileNode
  here : List Name
  deriving Inhabited

namespace FileTree

/-! ## Paths -/

/-- The parts of a path between slashes. An absolute path has an empty part in front, and a path
with a slash at its end an empty part behind. -/
def parts : Path → List Name
  | [] => [[]]
  | c :: rest =>
    if c = '/' then [] :: parts rest
    else match parts rest with
      | [] => [[c]]
      | first :: others => (c :: first) :: others

def isAbsolute (path : Path) : Bool :=
  path.head? = some '/'

/-- The bytes of a text in UTF-8. -/
def byteLength (text : List Char) : Nat :=
  sumOf (text.map Char.utf8Size)

/-- The most bytes of a name. -/
def longestName : Nat := 255

/-- The most bytes of a path. -/
def longestPath : Nat := 4095

/-- The most links that one path may lead through. -/
def mostLinks : Nat := 40

/-- The path without its last part. -/
def parent (path : Path) : Path :=
  ((path.reverse.dropWhile (· ≠ '/')).drop 1).reverse

/-! ## Following paths -/

/-- Where one part of a path leads from a folder: to another place, or into a link. -/
inductive Lead where
  | place (names : List Name)
  | link (target : Path)
  deriving DecidableEq, Repr

/-- Follows one part of a path from a place, which must be a folder. -/
def lead (root : FileNode) (base : List Name) (part : Name) : Except IoCause Lead :=
  match root.node? base with
  | none => .error .notFound
  | some (.folder entries) =>
    if part = [] ∨ part = ['.'] then .ok (.place base)
    else if part = ['.', '.'] then .ok (.place base.dropLast)
    else if longestName < byteLength part then .error .nameTooLong
    else match entries.lookup part with
      | none => .error .notFound
      | some (.link target) => .ok (.link target)
      | some _ => .ok (.place (base ++ [part]))
  | some _ => .error .notADirectory

/-- The place where a path starts that is met at a place. -/
def startOf (base : List Name) (path : Path) : List Name :=
  if isAbsolute path then [] else base

/-- Follows the parts of a path; a link's parts are handed to `follow` together with the rest. -/
def walk (follow : List Name → List Name → Except IoCause (List Name)) (root : FileNode) :
    (base parts : List Name) → Except IoCause (List Name)
  | base, [] => .ok base
  | base, part :: rest =>
    match lead root base part with
    | .error cause => .error cause
    | .ok (.place names) => walk follow root names rest
    | .ok (.link target) => follow (startOf base target) (parts target ++ rest)

/-- Follows the parts of a path through at most some number of links. -/
def resolve (root : FileNode) : (links : Nat) → (base parts : List Name) →
    Except IoCause (List Name)
  | 0 => walk (fun _ _ => .error .tooManyLinks) root
  | links + 1 => walk (resolve root links) root

/-- Refuses paths that cannot be followed at all. -/
def checkPath (path : Path) : Except IoCause Unit :=
  if path.contains '\x00' then .error .nulInPath
  else if path.isEmpty then .error .notFound
  else if longestPath < byteLength path then .error .nameTooLong
  else .ok ()

/-- The place that a path names. -/
def locate (tree : FileTree) (path : Path) : Except IoCause (List Name) := do
  checkPath path
  resolve tree.root mostLinks (startOf tree.here path) (parts path)

/-- What stands where a path leads. -/
def find (tree : FileTree) (path : Path) : Except IoCause FileNode := do
  let names ← tree.locate path
  match tree.root.node? names with
  | some node => .ok node
  | none => .error .notFound

/-- The contents of a file. A device has none. -/
def read (tree : FileTree) (path : Path) : Except IoCause Bytes := do
  match ← tree.find path with
  | .file data => .ok data
  | .folder _ => .error .isADirectory
  | _ => .ok []

/-- Whether a path leads to a file. -/
def isFile (tree : FileTree) (path : Path) : Bool :=
  match tree.find path with
  | .ok (.file _) => true
  | _ => false

/-! ## Writing -/

/-- Follows the last part of a path to the place of a file that is to be written. -/
def lastToTarget (follow : List Name → List Name → Except IoCause (List Name)) (root : FileNode)
    (base : List Name) (last : Name) : Except IoCause (List Name) :=
  match lead root base last with
  | .error .notFound => .ok (base ++ [last])
  | .error cause => .error cause
  | .ok (.link target) => follow (startOf base target) (parts target)
  | .ok (.place names) =>
    match root.node? names with
    | some (.folder _) => .error .isADirectory
    | _ => .ok names

/-- Follows the parts of a path to the place of a file that is to be written, which need not be
there yet. A slash behind the last name asks for a folder, whatever stands there. -/
def walkToTarget (follow : List Name → List Name → Except IoCause (List Name)) (root : FileNode) :
    (base parts : List Name) → Except IoCause (List Name)
  | _, [] => .error .isADirectory
  | base, [last] => lastToTarget follow root base last
  | base, part :: next :: rest =>
    if (next :: rest).all List.isEmpty then
      match lead root base [] with
      | .error cause => .error cause
      | .ok _ => .error .isADirectory
    else match lead root base part with
      | .error cause => .error cause
      | .ok (.place names) => walkToTarget follow root names (next :: rest)
      | .ok (.link target) => follow (startOf base target) (parts target ++ next :: rest)

/-- The place of a file that is to be written, through at most some number of links. -/
def target (root : FileNode) : (links : Nat) → (base parts : List Name) →
    Except IoCause (List Name)
  | 0 => walkToTarget (fun _ _ => .error .tooManyLinks) root
  | links + 1 => walkToTarget (target root links) root

/-- Makes a file with some contents, or gives an existing one these contents. -/
def write (tree : FileTree) (path : Path) (data : Bytes) : Except IoCause FileTree := do
  checkPath path
  let names ← target tree.root mostLinks (startOf tree.here path) (parts path)
  match tree.root.node? names with
  | some (.device .sink) => .ok tree
  | some (.device .full) => if data.isEmpty then .ok tree else .error .deviceFull
  | _ => .ok { tree with root := tree.root.put names (.file data) }

/-- Makes the folders along some parts of a path that are missing. A link that leads nowhere stands
in the way of a folder. -/
def makeFoldersFrom (root : FileNode) : (base parts : List Name) → Except IoCause FileNode
  | _, [] => .ok root
  | base, part :: rest =>
    match resolve root mostLinks base [part] with
    | .ok names =>
      match root.node? names with
      | some (.folder _) => makeFoldersFrom root names rest
      | _ => .error .notADirectory
    | .error .notFound =>
      let names := base ++ [part]
      if (root.node? names).isSome then .error .alreadyThere
      else makeFoldersFrom (root.put names (.folder [])) names rest
    | .error cause => .error cause

/-- The tree with the folders along some first parts of a path. -/
def withFolders (tree : FileTree) (path : Path) (folders : List Name) :
    Except IoCause FileTree := do
  checkPath path
  let root ← makeFoldersFrom tree.root (startOf tree.here path) folders
  .ok { tree with root }

/-- The folders that are made for a path. A dot at its end asks for a folder that is there, so the
name before it is left out. -/
def foldersToMake (path : Path) : List Name :=
  let backward := (parts path).reverse.dropWhile List.isEmpty
  if backward.head? = some ['.'] then
    ((backward.dropWhile fun part => part = [] ∨ part = ['.']).drop 1).reverse
  else backward.reverse

/-- Makes a folder and all folders above it that are missing. -/
def makeFolders (tree : FileTree) (path : Path) : Except IoCause FileTree :=
  if path.isEmpty then .ok tree
  else do
    let after ← tree.withFolders path (foldersToMake path)
    match ← after.find path with
    | .folder _ => .ok after
    | _ => .error .notADirectory

/-- Writes a file after making the folders above it. -/
def putFile (tree : FileTree) (path : Path) (data : Bytes) : Except IoCause FileTree := do
  let after ← tree.withFolders path (parts path).dropLast
  after.write path data

/-- The folder that the last part of a path is looked up in. -/
def holder (tree : FileTree) (path : Path) : Except IoCause (List Name) := do
  checkPath path
  resolve tree.root mostLinks (startOf tree.here path) (parts path).dropLast

/-- The last part of a path, which is empty behind a slash. -/
def lastPart (path : Path) : Name :=
  (parts path).getLastD []

/-- Makes a symbolic link where nothing stands yet, after making the folders above it. -/
def putLink (tree : FileTree) (path target : Path) : Except IoCause FileTree := do
  checkPath target
  let tree ← tree.withFolders path (parts path).dropLast
  let folder ← tree.holder path
  match lead tree.root folder (lastPart path) with
  | .ok _ => .error .alreadyThere
  | .error .notFound =>
    .ok { tree with root := tree.root.put (folder ++ [lastPart path]) (.link target) }
  | .error cause => .error cause

/-- Takes away an entry that is no folder. A link goes itself, not what it leads to. -/
def remove (tree : FileTree) (path : Path) : Except IoCause FileTree := do
  let folder ← tree.holder path
  let erased (names : List Name) : FileTree := { tree with root := tree.root.erase names }
  match ← lead tree.root folder (lastPart path) with
  | .link _ => .ok (erased (folder ++ [lastPart path]))
  | .place names =>
    match tree.root.node? names with
    | some (.folder _) => .error .isADirectory
    | _ => .ok (erased names)

/-- An empty working folder beside some devices. -/
def scratch : FileTree where
  root := .folder [
    ("dev".toList, .folder [
      ("null".toList, .device .sink), ("zero".toList, .device .sink),
      ("random".toList, .device .sink), ("urandom".toList, .device .sink),
      ("full".toList, .device .full)]),
    ("scratch".toList, .folder [])]
  here := ["scratch".toList]

end FileTree

end GramCensus
