import UnitGraph.Source.Ledger
import UnitGraph.Unit.Reference

/-!
# Checked access

Reading a table at a position that it does not have is a fault. The walks along types and the claims on the
ledger are given here once more with every single access checked. They stop at the first fault, and answer
as the plain ones do if there is none.
-/
namespace UnitGraph

/-- An access outside a table of the unit, the blocks of a flow graph, the token stream or the arena, or a
recursion that is deeper than it may be. -/
inductive Fault where
  | decl (d : DeclId)
  | stmt (s : StmtId)
  | type (t : TypeId)
  | block (function : DeclId) (position : Nat)
  | token (position : Nat)
  | node (position : Nat)
  | depth
  deriving DecidableEq, Repr

/-- What was found, or a fault. -/
def Fault.unless {α : Type} (f : Fault) : Option α → Except Fault α
  | some a => .ok a
  | none => .error f

namespace Checked

section Types
variable (u : SourceUnit)

def decl (d : DeclId) : Except Fault Decl := (Fault.decl d).unless (u.decl? d)

def stmt (s : StmtId) : Except Fault Stmt := (Fault.stmt s).unless (u.stmt? s)

def type (t : TypeId) : Except Fault TypeEntry := (Fault.type t).unless (u.type? t)

def desugar (t : TypeId) : Except Fault (Option TypeId) := do
  match (← type u t).kind with
  | .typedef d =>
      match (← decl u d).kind with
      | .typedef underlying => pure (some underlying)
      | _ => pure none
  | .elaborated inner | .paren inner => pure (some inner)
  | _ => pure none

def follow (step : TypeId → Except Fault (Option TypeId)) : Nat → TypeId → Except Fault TypeId
  | 0, t => pure t
  | n + 1, t => do
      match ← step t with
      | some t' => follow step n t'
      | none => pure t

def findInSugar {β : Type} (pick : TypeKind → Option β) : Nat → TypeId → Except Fault (Option β)
  | 0, _ => pure none
  | n + 1, t => do
      match pick (← type u t).kind with
      | some b => pure (some b)
      | none =>
          match ← desugar u t with
          | some t' => findInSugar pick n t'
          | none => pure none

def canonical (t : TypeId) : Except Fault TypeId := follow (desugar u) u.stepLimit t

def pointee (t : TypeId) : Except Fault (Option TypeId) := do
  match (← type u (← canonical u t)).kind with
  | .pointer p => pure (some p)
  | _ => pure none

def stripPointers (t : TypeId) : Except Fault TypeId := follow (pointee u) u.stepLimit t

def recordDecl? (t : TypeId) : Except Fault (Option DeclId) := do
  match (← type u (← canonical u t)).kind with
  | .record d => pure (some d)
  | _ => pure none

def recordDefinition (d : DeclId) : Except Fault DeclId := do
  match (← decl u d).kind with
  | .record _ _ (some definition) => pure definition
  | _ => pure d

def referencedRecord (t : TypeId) : Except Fault (Option DeclId) := do
  match ← recordDecl? u (← stripPointers u t) with
  | some d => some <$> recordDefinition u d
  | none => pure none

def asTypedef (t : TypeId) : Except Fault (Option DeclId) :=
  findInSugar u (fun | .typedef d => some d | _ => none) u.stepLimit t

def referencedAlias (t : TypeId) : Except Fault (Option DeclId) := do
  match ← asTypedef u t with
  | some d => pure (some d)
  | none => asTypedef u (← stripPointers u t)

def namedEnum (t : TypeId) : Except Fault (Option DeclId) :=
  findInSugar u (fun | .enum d => some d | _ => none) u.stepLimit t

/-- What a parenthesised type encloses. -/
def enclosed? : TypeKind → Option TypeId
  | .paren inner => some inner
  | _ => none

def signature? : TypeKind → Option SourceUnit.Signature
  | .functionProto result params _ => some ⟨result, params⟩
  | _ => none

def functionPointer (t : TypeId) : Except Fault (Option SourceUnit.Signature) := do
  match ← pointee u t with
  | none => pure none
  | some p =>
      match ← findInSugar u enclosed? u.stepLimit p with
      | none => pure none
      | some inner => return signature? (← type u (← canonical u inner)).kind

def spelling (t : TypeId) : Except Fault String := (·.spelling) <$> type u t

/-- The spelling of the type that a typedef names. -/
def underlyingSpelling : DeclKind → Except Fault String
  | .typedef t => spelling u t
  | _ => pure ""

/-- The spelling of the type that a declaration has, if it has one. -/
def declaredSpelling : Option TypeId → Except Fault String
  | some t => spelling u t
  | none => pure ""

/-- Whether a declaration is a typedef of some record with the given definition. -/
def isTypedefOf (target : DeclId) (d : Decl) : Except Fault Bool := do
  match d.kind with
  | .typedef t =>
      match ← recordDecl? u t with
      | some r => return decide ((← recordDefinition u r) = target)
      | none => pure false
  | _ => pure false

def isTypedefTarget (d : DeclId) : Except Fault Bool := do
  u.decls.toList.anyM (isTypedefOf u (← recordDefinition u d))

end Types

section Tokens

/-- Takes the tokens at some positions one by one. -/
def takeEach (access : Access) : List Nat → Ledger → Except Fault (List Token × Ledger)
  | [], l => pure ([], l)
  | i :: rest, l => do
      let entry ← (Fault.token i).unless l.entries[i]?
      let (tokens, after) ← takeEach access rest (l.take ⟨i, i⟩)
      if access = .exclusive ∧ entry.taken = true then pure (tokens, after)
      else pure (entry.token :: tokens, after)

/-- The tokens received and the ledger afterwards, position by position. -/
def claim (l : Ledger) (r : SourceRange) (access : Access) :
    Except Fault (Except LookupError (List Token × Ledger)) :=
  match l.resolve r with
  | .error e => pure (.error e)
  | .ok s => Except.ok <$> takeEach access (List.range' s.first (s.last + 1 - s.first)) l

def tokenAt? (l : Ledger) (location : Nat) : Except Fault (Option Token) :=
  match l.slot? location with
  | some i => (some ·.token) <$> (Fault.token i).unless l.entries[i]?
  | none => pure none

end Tokens

end Checked

end UnitGraph
