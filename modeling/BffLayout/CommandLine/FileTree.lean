/-!
Files as seen from the working directory. A path is walked name by name: every step needs a
directory to start from, a missing name stops the walk, and two points lead to the parent. Outside
the working directory only so much is known: it is contained in directories, and the root holds what
every system has.
-/
namespace BffLayout.CommandLine

inductive Node where
  | directory
  | text (content : String)
  /-- Bytes that are not UTF-8. -/
  | binary (bytes : List UInt8)
  deriving DecidableEq

/-- Nodes by the names that lead to them from the working directory. -/
structure FileTree where
  entries : List (List String × Node)

inductive Place where
  | inside (names : List String)
  /-- A directory that contains the working directory, by way of it. -/
  | containing
  | absolute (names : List String)
  deriving DecidableEq, Repr

inductive ReadFailure where
  | missing
  | notDirectory
  | directory
  | nameTooLong
  | notText
  | other (text : String)
  deriving DecidableEq, Repr

def ReadFailure.message : ReadFailure → String
  | missing => "No such file or directory (os error 2)"
  | notDirectory => "Not a directory (os error 20)"
  | directory => "Is a directory (os error 21)"
  | nameTooLong => "File name too long (os error 36)"
  | notText => "stream did not contain valid UTF-8"
  | other text => text

/-- Whether the path leads nowhere, rather than to something that is no text. -/
def ReadFailure.isUnresolved : ReadFailure → Bool
  | missing | notDirectory | nameTooLong => true
  | directory | notText | other _ => false

/-- The names between the slashes of a path. -/
def pathNames (path : String) : List String := (path.toList.splitOnP (· == '/')).map String.ofList

namespace Place

/-- A path that begins with a slash starts at the root. -/
def start (path : String) : Place :=
  if path.toList.head? = some '/' then absolute [] else inside []

/-- The directory that contains the place; the root contains itself. -/
def parent : Place → Place
  | inside [] => containing
  | inside (name :: names) => inside (name :: names).dropLast
  | containing => containing
  | absolute names => absolute names.dropLast

/-- The place with a name in a directory, if anything can be known about it. -/
def child? (name : String) : Place → Option Place
  | inside names => some (inside (names ++ [name]))
  | containing => none
  | absolute names => some (absolute (names ++ [name]))

end Place

/-- What every system has at its root; the null file is empty. -/
def systemNodes : List (List String × Node) :=
  [(["dev"], .directory), (["dev", "null"], .text ""), (["tmp"], .directory)]

namespace FileTree

def empty : FileTree := ⟨[]⟩

def node? (t : FileTree) : Place → Option Node
  | .inside [] | .containing | .absolute [] => some .directory
  | .inside names => t.entries.lookup names
  | .absolute names => systemNodes.lookup names

def child (t : FileTree) (place : Place) (name : String) : Except ReadFailure Place :=
  if 255 < name.utf8ByteSize then .error .nameTooLong
  else match place.child? name with
    | some inner => if (t.node? inner).isSome then .ok inner else .error .missing
    | none => .error .missing

def step (t : FileTree) (place : Place) (name : String) : Except ReadFailure Place :=
  if t.node? place ≠ some .directory then .error .notDirectory
  else if name = "" ∨ name = "." then .ok place
  else if name = ".." then .ok place.parent
  else t.child place name

/-- Where a path leads. With its end mark a path has room for 4096 bytes. -/
def resolve (t : FileTree) (path : String) : Except ReadFailure Place :=
  if path.isEmpty then .error .missing
  else if 4096 ≤ path.utf8ByteSize then .error .nameTooLong
  else (pathNames path).foldlM t.step (Place.start path)

def read (t : FileTree) (path : String) : Except ReadFailure String := do
  match t.node? (← t.resolve path) with
  | some (.text content) => return content
  | some (.binary _) => throw .notText
  | some .directory => throw .directory
  | none => throw .missing

def nodeAt? (t : FileTree) (path : String) : Option Node :=
  match t.resolve path with
  | .ok place => t.node? place
  | .error _ => none

/-- Puts a node in the place of the one with these names, or beside the others. -/
def set (t : FileTree) (names : List String) (node : Node) : FileTree :=
  if (t.entries.lookup names).isSome then
    ⟨t.entries.map fun entry => if entry.1 = names then (names, node) else entry⟩
  else ⟨t.entries ++ [(names, node)]⟩

def write (t : FileTree) (path content : String) : FileTree :=
  match t.resolve path with
  | .ok (.inside names) => t.set names (.text content)
  | _ => t

/-- Goes one name further and makes the directory there if nothing is. -/
def enter (t : FileTree) (place : Place) (name : String) : FileTree × Place :=
  if name = "" ∨ name = "." then (t, place)
  else if name = ".." then (t, place.parent)
  else match place with
    | .inside names =>
      let inner := names ++ [name]
      if (t.node? (.inside inner)).isSome then (t, .inside inner)
      else (t.set inner .directory, .inside inner)
    | _ => (t, place)

def addDirectory (t : FileTree) (path : String) : FileTree :=
  ((pathNames path).foldl (fun (t, place) name => t.enter place name) (t, Place.start path)).1

/-- Makes a file at a path and the directories that contain it. -/
def addFile (t : FileTree) (path : String) (node : Node) : FileTree :=
  let names := pathNames path
  match names.dropLast.foldl (fun (t, place) name => t.enter place name) (t, Place.start path) with
  | (t, .inside directory) => t.set (directory ++ names.getLast?.toList) node
  | (t, _) => t

end FileTree

end BffLayout.CommandLine
