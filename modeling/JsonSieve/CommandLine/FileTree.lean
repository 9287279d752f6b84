import JsonSieve.Text.Lines
import JsonSieve.Text.Utf8

/-!
# Trees of files

A tree of files is what is known of a file system: what stands at some places, and which
directory is the current one.  A path is followed name by name.  Whatever it goes through has
to be a directory that is there, even if the next name leads back out of it, and neither a path
nor a name in it may be too long.

A tree remembers in which order it was changed, so that the changes can be repeated elsewhere.
-/

namespace JsonSieve

/-- What stands at a place of a file system.  A stream can be read but has no size. -/
inductive Node
  | file (content : Bytes)
  | stream (content : Bytes)
  | directory
  deriving DecidableEq

/-- A place in a file system: the names on the way to it from the root. -/
abbrev Place := List String

/-- A change in a file system: a new directory, with those in which it lies, or a file with new
content. -/
inductive Change
  | directory (path : String)
  | file (path : String) (content : Bytes)
  deriving DecidableEq

/-- A file system as far as it is known.  The ways to the current directory and to all that is
known lead through directories, which are not listed. -/
structure FileTree where
  current : Place
  nodes : List (Place × Node)
  changes : List Change := []

namespace FileTree

/-- Why nothing can be done at a path. -/
inductive Error
  /-- The way to it is not there. -/
  | missing
  /-- The way to it leads through something else than a directory. -/
  | notDirectory
  /-- A directory stands there. -/
  | directory
  /-- It leads nowhere in any file system. -/
  | unusable
  deriving DecidableEq

/-- How many octets a name may have. -/
def nameLimit : Nat := 255

/-- How many octets a path may have. -/
def pathLimit : Nat := 4095

/-- Whether there are file systems in which a path leads somewhere. -/
def isUsable (path : String) : Bool :=
  path.utf8ByteSize ≤ pathLimit && !path.toList.contains '\x00'

def namesOf (path : String) : List String :=
  (Lines.splitAt '/' path.toList).map String.ofList

def pathOf (names : List String) : String :=
  "/".intercalate names

/-- Whether a name leads to where it is. -/
def isIdle (name : String) : Bool :=
  name = "" || name = "."

def advance (place : Place) (name : String) : Place :=
  if isIdle name then place
  else if name = ".." then place.dropLast
  else place ++ [name]

def currentPath (tree : FileTree) : String :=
  if tree.current.isEmpty then "/" else pathOf ("" :: tree.current)

def isAbsolute (path : String) : Bool :=
  path.toList.head? = some '/'

def start (tree : FileTree) (path : String) : Place :=
  if isAbsolute path then [] else tree.current

def at? (tree : FileTree) (place : Place) : Option Node :=
  match tree.nodes.find? (fun node => node.1 = place) with
  | some node => some node.2
  | none =>
      if place.isPrefixOf tree.current || tree.nodes.any (fun node => place.isPrefixOf node.1) then
        some .directory
      else none

def step (tree : FileTree) (place : Place) (name : String) : Except Error Place :=
  match tree.at? place with
  | none => .error .missing
  | some .directory =>
      if name.utf8ByteSize ≤ nameLimit then .ok (advance place name) else .error .unusable
  | some _ => .error .notDirectory

/-- The place to which a path leads.  The place is in a directory, but nothing has to stand
there. -/
def place (tree : FileTree) (path : String) : Except Error Place :=
  if isUsable path then (namesOf path).foldlM tree.step (tree.start path)
  else .error .unusable

def node? (tree : FileTree) (path : String) : Option Node :=
  match tree.place path with
  | .ok place => tree.at? place
  | .error _ => none

/-- The tree with something at a place, instead of what was there. -/
def put (tree : FileTree) (place : Place) (node : Node) : FileTree :=
  { tree with
    nodes := (place, node) :: tree.nodes.filter (fun other => !other.1.isPrefixOf place) }

def remember (tree : FileTree) (change : Change) : FileTree :=
  { tree with changes := tree.changes ++ [change] }

/-- Follows one name of a path, and makes a directory there if nothing is. -/
def makeStep (position : FileTree × Place) (name : String) : Except Error (FileTree × Place) := do
  let (tree, place) := position
  let place ← tree.step place name
  match tree.at? place with
  | some .directory => return (tree, place)
  | some _ => .error .notDirectory
  | none => return (tree.put place .directory, place)

/-- Names without those at the end that have some property. -/
def withoutEnd (property : String → Bool) (names : List String) : List String :=
  (names.reverse.dropWhile property).reverse

/-- The names on a path where directories can be made.  A path that ends in a point leads
through the last directory, which therefore has to be there. -/
def makeable (names : List String) : List String :=
  if (withoutEnd String.isEmpty names).getLast? = some "." then
    (withoutEnd isIdle names).dropLast
  else names

/-- Makes a directory at a path, and before it those in which it lies, unless they are
there. -/
def createDirectories (tree : FileTree) (path : String) : Except Error FileTree := do
  if isUsable path then
    let (made, _) ← (makeable (namesOf path)).foldlM makeStep (tree, tree.start path)
    if made.node? path = some .directory then return made.remember (.directory path)
    else .error .missing
  else .error .unusable

/-- Writes a file, in the place of the file that is there.  What is written to a stream is
gone. -/
def write (tree : FileTree) (path : String) (content : Bytes) : Except Error FileTree := do
  let place ← tree.place path
  match tree.at? place with
  | some .directory => .error .directory
  | some (.stream _) => return tree
  | _ => return (tree.put place (.file content)).remember (.file path content)

/-- The path from the current directory to a file below it. -/
def pathBelow? (tree : FileTree) : Place × Node → Option String
  | (place, .file _) =>
      if tree.current.isPrefixOf place then some (pathOf (place.drop tree.current.length))
      else none
  | _ => none

/-- The paths of all files below the current directory, in order. -/
def paths (tree : FileTree) : List String :=
  (tree.nodes.filterMap tree.pathBelow?).mergeSort (fun first second =>
    (Utf8.compareTexts first second).isLE)

end FileTree

end JsonSieve
