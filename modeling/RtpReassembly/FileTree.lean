import RtpReassembly.Table
import RtpReassembly.Files

/-!
# Trees of files

A tree of directories and files in memory, and what is done with a path in it.
The root directory is always there; a relative path starts at a directory that
the tree knows as the current one.

* `FileTree.resolve` follows a path to a place;
* `FileTree.openRead`, `FileTree.makeDirs` and `FileTree.append` are what a
  program does with the tree, put together in `FileTree.files`.
-/

namespace RtpReassembly

/-- A place in the tree: the names on the way from the root. -/
abbrev Place := List String

/-- A directory with what is in it, or a file with what it holds. -/
inductive FileNode
  | directory (entries : List (String × FileNode))
  | file (content : Bytes)

namespace FileNode

/-- What names lead to. -/
def find? (node : FileNode) : Place → Option FileNode
  | [] => some node
  | name :: names =>
    match node with
    | .file _ => none
    | .directory entries =>
      match Table.get? name entries with
      | none => none
      | some inner => inner.find? names

/-- What it is with `new` where names lead to.  Nothing changes if the last
name stands in no directory. -/
def put (node new : FileNode) : Place → FileNode
  | [] => new
  | name :: names =>
    match node with
    | .file content => .file content
    | .directory entries =>
      match Table.get? name entries, names with
      | some inner, names => .directory (Table.put name (inner.put new names) entries)
      | none, [] => .directory (Table.put name new entries)
      | none, _ => .directory entries

end FileNode

/-- A tree of directories and files. -/
structure FileTree where
  root : FileNode := .directory []
  /-- Where relative paths start. -/
  current : Place := []

namespace FileTree

/-- What is at a place. -/
def node? (t : FileTree) (place : Place) : Option FileNode :=
  t.root.find? place

/-- The tree with something at a place, if the place is in a directory. -/
def put (t : FileTree) (place : Place) (node : FileNode) : FileTree :=
  { t with root := t.root.put node place }

/-- The longest path, in octets. -/
def maxPathLength : Nat := 4095

/-- The place where a path starts, and its names, empty ones included. -/
def startOf (t : FileTree) (path : String) : Except FileError (Place × List String) :=
  if path.toList.contains (Char.ofNat 0) then .error .nulInName
  else if path.isEmpty then .error .notFound
  else if maxPathLength < path.utf8ByteSize then .error .nameTooLong
  else .ok (if Files.isAbsolute path then [] else t.current, Files.namesOf path)

/-- The longest name, in octets. -/
def maxNameLength : Nat := 255

/-- The place that a name leads to from a directory. -/
def enter (t : FileTree) (place : Place) (name : String) : Except FileError Place :=
  match t.node? place with
  | none => .error .notFound
  | some (.file _) => .error .notDirectory
  | some (.directory _) =>
    if name = "" ∨ name = "." then .ok place
    else if name = ".." then .ok place.dropLast
    else if maxNameLength < name.utf8ByteSize then .error .nameTooLong
    else .ok (place ++ [name])

/-- The place that names lead to; all but the last must be there. -/
def walk (t : FileTree) (place : Place) : List String → Except FileError Place
  | [] => .ok place
  | name :: names =>
    match t.enter place name with
    | .error e => .error e
    | .ok next => walk t next names

/-- The place of a path. -/
def resolve (t : FileTree) (path : String) : Except FileError Place :=
  match t.startOf path with
  | .error e => .error e
  | .ok (place, names) => t.walk place names

/-- Opens a path for reading. -/
def openRead (t : FileTree) (path : String) : Except FileError Capture.Source :=
  match t.resolve path with
  | .error e => .error e
  | .ok place =>
    match t.node? place with
    | none => .error .notFound
    | some (.directory _) => .ok .ofDirectory
    | some (.file content) => .ok (.ofBytes content)

/-- The tree after directories were made where names lead to, as far as that
can be done. -/
def makeDirsFrom (t : FileTree) (place : Place) : List String → FileTree
  | [] => t
  | name :: names =>
    match t.enter place name with
    | .error _ => t
    | .ok next =>
      match t.node? next with
      | none => makeDirsFrom (t.put next (.directory [])) next names
      | some _ => makeDirsFrom t next names

/-- The tree after a directory was made where names lead to, if all but the
last are there.  A slash may end them. -/
def makeDirAt (t : FileTree) (place : Place) (names : List String) : FileTree :=
  match t.walk place (names.reverse.dropWhile String.isEmpty).reverse with
  | .error _ => t
  | .ok next =>
    match t.node? next with
    | none => t.put next (.directory [])
    | some _ => t

/-- The tree after a directory was made with all that lead to it, as far as
that can be done.  A path that ends with a dot names a directory that has to be
there. -/
def makeDirs (t : FileTree) (path : String) : FileTree :=
  match t.startOf path with
  | .error _ => t
  | .ok (place, names) =>
    (t.makeDirsFrom place (Files.leadingNames path)).makeDirAt place names

/-- Puts into a file what `change` makes of its content; one that is not there
counts as empty. -/
def edit (t : FileTree) (path : String) (change : Bytes → Bytes) : Except FileError FileTree :=
  match t.resolve path with
  | .error e => .error e
  | .ok place =>
    match t.node? place with
    | some (.directory _) => .error .isDirectory
    | some (.file content) => .ok (t.put place (.file (change content)))
    | none => .ok (t.put place (.file (change [])))

/-- Adds octets to a file, which is made if it is not there. -/
def append (t : FileTree) (path : String) (octets : Bytes) : Except FileError FileTree :=
  t.edit path (· ++ octets)

/-- Writes a file, whatever it held before. -/
def write (t : FileTree) (path : String) (octets : Bytes) : Except FileError FileTree :=
  t.edit path (fun _ => octets)

/-- The content of a file, if the path leads to one. -/
def content? (t : FileTree) (path : String) : Option Bytes :=
  match t.resolve path with
  | .error _ => none
  | .ok place =>
    match t.node? place with
    | some (.file content) => some content
    | _ => none

/-- The files of a program that works on a tree. -/
def files : Files (StateM FileTree) where
  openRead path := do return (← get).openRead path
  makeDirs path := modify (fun t => t.makeDirs path)
  append path octets := do
    match (← get).append path octets with
    | .error e => return .error e
    | .ok t =>
      set t
      return .ok ()

end FileTree

end RtpReassembly
