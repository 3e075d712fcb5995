import UnitGraph.Source.Range
import UnitGraph.Text.Search

/-!
# Tokens

A lexeme is what a lexer delivers: a kind, a spelling and a location. A token is a lexeme together with
its position in the stream, so sorting any selection of tokens by that position restores source order.
-/
namespace UnitGraph

/-- A token as the lexer delivers it. -/
structure Lexeme where
  kind : String
  text : String
  location : Nat
  deriving DecidableEq, Repr, Inhabited

/-- A lexeme with its zero-based position in the stream; `name` is its spelling. -/
structure Token where
  index : Nat
  name : String
  kind : String
  location : Nat
  deriving DecidableEq, Repr, Inhabited

namespace Token

def ofLexeme (index : Nat) (lexeme : Lexeme) : Token :=
  ⟨index, lexeme.text, lexeme.kind, lexeme.location⟩

@[simp] theorem index_ofLexeme (i : Nat) (x : Lexeme) : (ofLexeme i x).index = i := rfl
@[simp] theorem location_ofLexeme (i : Nat) (x : Lexeme) : (ofLexeme i x).location = x.location := rfl

/-- Tokens of preprocessor pragmas, recognised by their kind. -/
def isPragma (t : Token) : Bool := Text.occursIn "pragma" t.kind

/-- The spellings of tokens in the order given, separated by single spaces. -/
def spellings (tokens : List Token) : String := String.intercalate " " (tokens.map name)

end Token

end UnitGraph
