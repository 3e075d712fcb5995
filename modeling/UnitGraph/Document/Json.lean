import UnitGraph.Document.Basic
import UnitGraph.Text.Hexadecimal

/-!
# JSON

Documents as JSON, one item or field per line, indented by two spaces per level. An empty list or record
stands on one line. In strings the quote, the backslash and the characters below U+0020 are escaped and
all others stand for themselves.
-/
namespace UnitGraph.Document

/-- The escapes that have a letter of their own. -/
def jsonShortEscapes : List (Char × Char) :=
  [('"', '"'), ('\\', '\\'), ('\x08', 'b'), ('\x0c', 'f'), ('\n', 'n'), ('\r', 'r'), ('\t', 't')]

/-- A character inside a JSON string. -/
def jsonChar (c : Char) : List Char :=
  match jsonShortEscapes.lookup c with
  | some e => ['\\', e]
  | none => if c.toNat < 32 then '\\' :: 'u' :: Text.hexDigits 4 c.toNat else [c]

def jsonString (s : String) : List Char := '"' :: s.toList.flatMap jsonChar ++ ['"']

/-- A line break and the indentation of a level. -/
def jsonBreak (level : Nat) : List Char := '\n' :: List.replicate (2 * level) ' '

mutual

/-- The JSON text of a document that starts at a level of indentation. -/
def jsonAt (level : Nat) : Document → List Char
  | .null => "null".toList
  | .bool true => "true".toList
  | .bool false => "false".toList
  | .number n => Nat.toDigits 10 n
  | .text s => jsonString s
  | .list [] => "[]".toList
  | .list (d :: ds) =>
      '[' :: jsonBreak (level + 1) ++ jsonAt (level + 1) d ++ jsonItems (level + 1) ds ++
        jsonBreak level ++ [']']
  | .record [] => "\x7b\x7d".toList
  | .record ((k, d) :: fs) =>
      '\x7b' :: jsonBreak (level + 1) ++ jsonString k ++ ": ".toList ++ jsonAt (level + 1) d ++
        jsonFields (level + 1) fs ++ jsonBreak level ++ ['\x7d']

/-- The items after the first, each after a comma on a line of its own. -/
def jsonItems (level : Nat) : List Document → List Char
  | [] => []
  | d :: ds => ',' :: jsonBreak level ++ jsonAt level d ++ jsonItems level ds

/-- The fields after the first, each after a comma on a line of its own. -/
def jsonFields (level : Nat) : List (String × Document) → List Char
  | [] => []
  | (k, d) :: fs =>
      ',' :: jsonBreak level ++ jsonString k ++ ": ".toList ++ jsonAt level d ++ jsonFields level fs

end

/-- The JSON text of a document, without a final line break. -/
def json (d : Document) : String := String.ofList (jsonAt 0 d)

end UnitGraph.Document
