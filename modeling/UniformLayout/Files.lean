import UniformLayout.Text.Path

/-!
# File trees

A `FileTree` is what can be reached from a working directory: text files and directories, each at
its `Location`. Paths are read piece by piece; every piece but the last has to lead to a directory.
`..` leads to the directory above, also from the working directory; the directories above it always
exist, and nothing else is known of them. A name holds at most 255 bytes, a path less than 4096, and
neither holds a zero character.

Main statement: `FileTree.read?_writeAt`.
-/

namespace UniformLayout

/-! ## Locations -/

/-- A directory that exists without having been created. -/
inductive Anchor where
  /-- The directory that many levels above the working directory. -/
  | above (levels : Nat)
  /-- The directory above all others. -/
  | top
  deriving DecidableEq, Repr

def Anchor.parent : Anchor → Anchor
  | above levels => above (levels + 1)
  | top => top

/-- The place of a file or directory: the names that lead to it from an anchor on. Their number
stands first, so that places of different depth are told apart at once. -/
structure Location where
  anchor : Anchor := .above 0
  depth : Nat := 0
  names : List String := []
  depth_eq : depth = names.length := by simp
  deriving DecidableEq, Repr

namespace Location

def child (location : Location) (name : String) : Location where
  anchor := location.anchor
  depth := location.depth + 1
  names := location.names ++ [name]
  depth_eq := by simp [location.depth_eq]

def parent (location : Location) : Location :=
  if location.depth = 0 then { anchor := location.anchor.parent }
  else {
    anchor := location.anchor
    depth := location.depth - 1
    names := location.names.dropLast
    depth_eq := by simp [location.depth_eq] }

end Location

/-! ## Trees -/

/-- The files, and the directories that are no anchors. -/
structure FileTree where
  files : List (Location × String) := []
  directories : List Location := []
  deriving DecidableEq, Repr, Inhabited

namespace FileTree

/-- The location is an anchor or a known directory. -/
def isDirectory (tree : FileTree) (location : Location) : Bool :=
  location.depth == 0 || tree.directories.contains location

def fileAt? (tree : FileTree) (location : Location) : Option String :=
  tree.files.lookup location

/-- A piece of a path that is short enough for the name of a file or directory. -/
def isName (piece : List Char) : Bool :=
  (String.ofList piece).utf8ByteSize ≤ 255

def step? (tree : FileTree) (location : Location) (piece : List Char) : Option Location :=
  if !tree.isDirectory location then none
  else if Path.isIdle piece then some location
  else if piece = ['.', '.'] then some location.parent
  else if isName piece then some (location.child (String.ofList piece))
  else none

/-- The text can stand for a file or directory: it is not empty, not too long and without zero
characters. -/
def isUsable (path : String) : Bool :=
  !path.isEmpty && path.utf8ByteSize < 4096 && !path.toList.contains '\x00'

/-- Where a path starts: an absolute one at the top, any other in the working directory. -/
def start (path : String) : Location :=
  if path.startsWith "/" then { anchor := .top } else {}

/-- Where a path leads. Its last name need not exist. -/
def resolve? (tree : FileTree) (path : String) : Option Location :=
  if isUsable path then (Path.pieces path).foldlM tree.step? (start path) else none

def pathExists (tree : FileTree) (path : String) : Bool :=
  (tree.resolve? path).any fun location =>
    tree.isDirectory location || (tree.fileAt? location).isSome

def read? (tree : FileTree) (path : String) : Option String :=
  (tree.resolve? path).bind tree.fileAt?

def writeAt (tree : FileTree) (location : Location) (text : String) : FileTree :=
  { tree with files := (location, text) :: tree.files.filter (·.1 != location) }

/-- Sets the text of the file under the path, in a directory that exists. -/
def write? (tree : FileTree) (path text : String) : Option FileTree := do
  let location ← tree.resolve? path
  if tree.isDirectory location then none else some (tree.writeAt location text)

/-- What is written under a path is read there, whatever the path leads to. -/
theorem read?_writeAt (tree : FileTree) (location : Location) (text : String) :
    (tree.writeAt location text).fileAt? location = some text := by
  simp [writeAt, fileAt?]

/-! ## New directories -/

def addDirectory (tree : FileTree) (location : Location) : FileTree :=
  { tree with directories := location :: tree.directories }

/-- The pieces name nothing of their own, and `.` is among them. -/
def isDotted (pieces : List (List Char)) : Bool :=
  pieces.all Path.isIdle && pieces.contains ['.']

/-- Follows pieces from a directory on and creates each directory that is missing, but none whose
name only `.` follows. Says whether the end was reached; what was created stays in either case. -/
def createAlong (tree : FileTree) (location : Location) : List (List Char) → Bool × FileTree
  | [] => (true, tree)
  | piece :: rest =>
    match tree.step? location piece with
    | none => (false, tree)
    | some next =>
      if tree.isDirectory next then tree.createAlong next rest
      else if (tree.fileAt? next).isSome || isDotted rest then (false, tree)
      else (tree.addDirectory next).createAlong next rest

/-- Creates the directory of the path with all directories above it. Nothing has to be done for the
empty path. -/
def createDirectories (tree : FileTree) (path : String) : Bool × FileTree :=
  if path.isEmpty then (true, tree)
  else if isUsable path then tree.createAlong (start path) (Path.pieces path)
  else (false, tree)

end FileTree

end UniformLayout
