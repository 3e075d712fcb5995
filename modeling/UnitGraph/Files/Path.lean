/-!
# Paths

A path is a text; slashes separate its segments. Paths are compared by their components: repeated and
final slashes and segments that stay where they are do not count, except for one at the very beginning.
-/
namespace UnitGraph

/-- A part of a path that leads somewhere. -/
inductive PathComponent where
  | root
  | current
  | parent
  | normal (name : String)
  deriving DecidableEq, Repr

namespace Path

/-- The texts between the slashes, among them empty ones. -/
def segments (path : String) : List String := (path.toList.splitOn '/').map String.ofList

def isAbsolute (path : String) : Bool := path.toList.head? = some '/'

/-- The component of a segment that does not begin the path. -/
def component? (segment : String) : Option PathComponent :=
  if segment = "" ∨ segment = "." then none
  else if segment = ".." then some .parent
  else some (.normal segment)

def components (path : String) : List PathComponent :=
  (if isAbsolute path then [.root] else if (segments path).head? = some "." then [.current] else []) ++
    (segments path).filterMap component?

def fileName? (path : String) : Option String :=
  match (components path).getLast? with
  | some (.normal name) => some name
  | _ => none

/-- The part of a name after its last dot; a dot at the very beginning does not count. -/
def extensionOfName? (name : String) : Option String :=
  let cs := name.toList
  let after := (cs.reverse.takeWhile (· ≠ '.')).reverse
  if after.length + 1 < cs.length then some (String.ofList after) else none

def extension? (path : String) : Option String := (fileName? path).bind extensionOfName?

/-- A path continued by another; an absolute one replaces what came before. -/
def join (base path : String) : String :=
  if isAbsolute path ∨ base = "" then path
  else if base.toList.getLast? = some '/' then base ++ path
  else base ++ "/" ++ path

def trimSlashes (path : String) : String :=
  String.ofList (path.toList.reverse.dropWhile (· = '/')).reverse

/-- A path up to and with its last slash, and the rest. -/
def splitLast (path : String) : String × String :=
  let backwards := path.toList.reverse
  (String.ofList (backwards.dropWhile (· ≠ '/')).reverse,
    String.ofList (backwards.takeWhile (· ≠ '/')).reverse)

end Path

end UnitGraph
