import UnitGraph.Document.Basic
import UnitGraph.Text.Hexadecimal
import UnitGraph.Text.Number

/-!
# YAML

Documents as YAML in block style, as a list of lines. A list that is the value of a field is not indented
further than the field; a record is, by two spaces. A text stands plain unless a reader would take it for
something else, and then in single quotes. Only in double quotes can a character be escaped, so a text in
which one has to be stands in those; every text is written on one line.
-/
namespace UnitGraph.Document

/-- Words that stand for no value or for a truth value. -/
def reservedWords : List String :=
  ["null", "Null", "NULL", "~", "true", "True", "TRUE", "false", "False", "FALSE"]

/-- Characters that no plain scalar begins with. -/
def indicators : List Char :=
  ['#', ',', '[', ']', '\x7b', '\x7d', '&', '*', '!', '|', '>', '\'', '"', '%', '@', '\x60']

/-- Characters that a plain scalar begins with only if something other than a space follows. -/
def spacedIndicators : List Char := ['?', ':', '-']

/-- A colon before a space or at the end, or a comment sign after a space. -/
def hasSeparator : List Char → Bool
  | [] => false
  | [c] => c = ':'
  | c :: d :: cs => (c = ':' && d = ' ') || (c = ' ' && d = '#') || hasSeparator (d :: cs)

/-- The beginning of a text alone forbids the plain form. -/
def hasIndicator : List Char → Bool
  | [] => false
  | c :: cs => c ∈ indicators || (c ∈ spacedIndicators && (cs.isEmpty || cs.head? = some ' '))

/-- Whether a text has to be quoted. -/
def needsQuotes (s : String) : Bool :=
  let cs := s.toList
  cs.isEmpty || s ∈ reservedWords || Text.readsAsNumber cs ||
    "---".toList.isPrefixOf cs || "...".toList.isPrefixOf cs ||
    hasIndicator cs || hasSeparator cs || cs.head? = some ' ' || cs.getLast? = some ' '

/-- Single quotes around a text; a quote inside is written twice. -/
def singleQuoted (cs : List Char) : List Char :=
  '\'' :: cs.flatMap (fun c => if c = '\'' then ['\'', '\''] else [c]) ++ ['\'']

/-- The characters that stand for themselves, by their first and last code points: all up to U+FFFD but
the controls other than the line feed and the byte order mark. -/
def printableRanges : List (Nat × Nat) :=
  [(0x0a, 0x0a), (0x20, 0x7e), (0xa0, 0xd7ff), (0xe000, 0xfefe), (0xff00, 0xfffd)]

def isPrintable (c : Char) : Bool :=
  printableRanges.any fun (first, last) => first ≤ c.toNat && c.toNat ≤ last

/-- Characters that end a line. -/
def lineBreaks : List Char := ['\n', '\r', '\u0085', '\u2028', '\u2029']

/-- Whether a character can only be written as an escape. -/
def needsEscape (c : Char) : Bool := !isPrintable c || c ∈ lineBreaks

/-- The escapes that have a letter or digit of their own. -/
def yamlShortEscapes : List (Char × Char) :=
  [('"', '"'), ('\\', '\\'), ('\x00', '0'), ('\x07', 'a'), ('\x08', 'b'), ('\t', 't'), ('\n', 'n'),
    ('\x0b', 'v'), ('\x0c', 'f'), ('\r', 'r'), ('\x1b', 'e'), ('\u0085', 'N'), ('\u2028', 'L'),
    ('\u2029', 'P')]

/-- The code point of a character after the letter that announces two, four or eight digits. -/
def yamlCodePoint (c : Char) : List Char :=
  let (letter, width) :=
    if c.toNat ≤ 0xff then ('x', 2) else if c.toNat ≤ 0xffff then ('u', 4) else ('U', 8)
  letter :: (Text.hexDigits width c.toNat).map Char.toUpper

/-- A character between double quotes. -/
def yamlChar (c : Char) : List Char :=
  match yamlShortEscapes.lookup c with
  | some e => ['\\', e]
  | none => if needsEscape c then '\\' :: yamlCodePoint c else [c]

/-- Double quotes around a text with escapes. -/
def doubleQuoted (cs : List Char) : List Char := '"' :: cs.flatMap yamlChar ++ ['"']

def yamlText (s : String) : List Char :=
  if s.toList.any needsEscape then doubleQuoted s.toList
  else if needsQuotes s then singleQuoted s.toList
  else s.toList

/-- A document that fits on the line where it begins. -/
def yamlInline? : Document → Option (List Char)
  | .null => some "null".toList
  | .bool true => some "true".toList
  | .bool false => some "false".toList
  | .number n => some (Nat.toDigits 10 n)
  | .text s => some (yamlText s)
  | .list [] => some "[]".toList
  | .record [] => some "\x7b\x7d".toList
  | .list (_ :: _) | .record (_ :: _) => none

/-- Whether a document is a record; as the value of a field it is indented. -/
def isRecord : Document → Bool
  | .record _ => true
  | _ => false

/-- Lines moved to the right by two spaces. -/
def indented (lines : List (List Char)) : List (List Char) := lines.map (' ' :: ' ' :: ·)

/-- Lines as an item of a list: a dash before the first, and the others below its text. -/
def dashed : List (List Char) → List (List Char)
  | [] => []
  | line :: lines => ('-' :: ' ' :: line) :: indented lines

/-- The lines of one field, whose value has the lines given. -/
def yamlField (k : String) (d : Document) (lines : List (List Char)) : List (List Char) :=
  match yamlInline? d with
  | some value => [yamlText k ++ ": ".toList ++ value]
  | none => (yamlText k ++ [':']) :: if isRecord d then indented lines else lines

mutual

/-- The lines of a document. -/
def yamlLines : Document → List (List Char)
  | .list (d :: ds) => dashed (yamlLines d) ++ yamlItems ds
  | .record ((k, d) :: fs) => yamlField k d (yamlLines d) ++ yamlFields fs
  | d => (yamlInline? d).toList

/-- The lines of the items after the first. -/
def yamlItems : List Document → List (List Char)
  | [] => []
  | d :: ds => dashed (yamlLines d) ++ yamlItems ds

/-- The lines of the fields after the first. -/
def yamlFields : List (String × Document) → List (List Char)
  | [] => []
  | (k, d) :: fs => yamlField k d (yamlLines d) ++ yamlFields fs

end

/-- The YAML text of a document; every line ends with a line break. -/
def yaml (d : Document) : String := String.ofList ((yamlLines d).flatMap (· ++ ['\n']))

end UnitGraph.Document
