import UnitGraph.Files.Path

/-!
# File trees

A file tree is a regular file with its bytes or a directory with named entries. Paths are looked up
segment by segment from the top. What a path may look like is limited: it holds no NUL, and neither it nor
a name in it is longer than a number of bytes.
-/
namespace UnitGraph

inductive FileTree where
  | file (bytes : List UInt8)
  | directory (entries : List (String × FileTree))
  deriving Repr

inductive FileError where
  | notFound
  | notDirectory
  | isDirectory
  | nameTooLong
  | nulInName
  deriving DecidableEq, Repr

def FileError.message : FileError → String
  | .notFound => "No such file or directory (os error 2)"
  | .notDirectory => "Not a directory (os error 20)"
  | .isDirectory => "Is a directory (os error 21)"
  | .nameTooLong => "File name too long (os error 36)"
  | .nulInName => "file name contained an unexpected NUL byte"

namespace Path

def maxNameBytes : Nat := 255

def maxPathBytes : Nat := 4095

/-- What can be said against a path before anything is looked up. -/
def validate (path : String) : Except FileError Unit :=
  if '\x00' ∈ path.toList then .error .nulInName
  else if maxPathBytes < path.utf8ByteSize then .error .nameTooLong
  else if path = "" then .error .notFound
  else .ok ()

/-- What can be said against a name before it is looked up in a directory. -/
def validateName (name : String) : Except FileError Unit :=
  if maxNameBytes < name.utf8ByteSize then .error .nameTooLong else .ok ()

end Path

namespace FileTree

def empty : FileTree := .directory []

def entries : FileTree → List (String × FileTree)
  | file _ => []
  | directory es => es

def isDirectory : FileTree → Bool
  | file _ => false
  | directory _ => true

def descend? (t : FileTree) : List String → Option FileTree
  | [] => some t
  | n :: names => (t.entries.lookup n).bind (·.descend? names)

/-- One segment further from a place in the tree: an empty segment or a dot stays there, two dots go up,
but not above the top, and a name goes down. Only a directory can be left in any direction. -/
def step (t : FileTree) (place : List String) (segment : String) : Except FileError (List String) :=
  match t.descend? place with
  | none => .error .notFound
  | some (.file _) => .error .notDirectory
  | some (.directory es) =>
      match Path.component? segment with
      | none | some .root | some .current => .ok place
      | some .parent => .ok place.dropLast
      | some (.normal name) => do
          Path.validateName name
          if (es.lookup name).isSome then .ok (place ++ [name]) else .error .notFound

/-- The place of a path, as the names that lead there from the top. -/
def locate (t : FileTree) (path : String) : Except FileError (List String) := do
  Path.validate path
  (Path.segments path).foldlM t.step []

def resolve (t : FileTree) (path : String) : Except FileError FileTree := do
  match t.descend? (← t.locate path) with
  | some found => .ok found
  | none => .error .notFound

def read (t : FileTree) (path : String) : Except FileError (List UInt8) := do
  match ← t.resolve path with
  | file bytes => .ok bytes
  | directory _ => .error .isDirectory

/-- The entries with another value for a name; a new name comes last. -/
def replaceEntry (entries : List (String × FileTree)) (name : String) (t : FileTree) :
    List (String × FileTree) :=
  if (entries.lookup name).isSome then entries.map fun e => if e.1 = name then (name, t) else e
  else entries ++ [(name, t)]

/-- The tree with something put at a place; missing directories on the way are made. -/
def place (t : FileTree) : List String → FileTree → FileTree
  | [], new => new
  | n :: names, new =>
      .directory (replaceEntry t.entries n (((t.entries.lookup n).getD empty).place names new))

/-- The tree after a file has been written. Its directory has to exist, and the path must neither be that
of a directory nor end like one. -/
def write (t : FileTree) (path : String) (bytes : List UInt8) : Except FileError FileTree := do
  Path.validate path
  let trimmed := Path.trimSlashes path
  let (parent, name) := Path.splitLast trimmed
  let directory ← if parent = "" then .ok [] else t.locate parent
  match Path.component? name with
  | some (.normal name) =>
      if trimmed ≠ path then .error .isDirectory
      else
        Path.validateName name
        match t.descend? (directory ++ [name]) with
        | some (.directory _) => .error .isDirectory
        | _ => .ok (t.place (directory ++ [name]) (.file bytes))
  | _ => .error .isDirectory

end FileTree

end UnitGraph
