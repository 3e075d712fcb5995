import UnitGraph.Unit.Reference

/-!
# Units whose references stay in their tables

A unit is in range if every identity in its top level and in its tables is a position of the table that it
belongs to. Whatever a type or a value then refers to, through any sugar and any pointers, is a declaration
of the unit.
-/
namespace UnitGraph

/-- The declarations that a kind of declaration names. -/
def DeclKind.decls : DeclKind → List DeclId
  | .function params _ => params
  | .record _ fields definition => fields ++ definition.toList
  | .enum constants => constants
  | .var | .param | .field | .enumConstant | .typedef _ => []

def DeclKind.body? : DeclKind → Option StmtId
  | .function _ body => body
  | _ => none

def DeclKind.underlying? : DeclKind → Option TypeId
  | .typedef t => some t
  | _ => none

/-- The declaration that a kind of type names. -/
def TypeKind.decl? : TypeKind → Option DeclId
  | .record d | .enum d | .typedef d => some d
  | _ => none

/-- The types that a kind of type is built from. -/
def TypeKind.parts : TypeKind → List TypeId
  | .pointer t | .array t _ | .elaborated t | .paren t => [t]
  | .functionProto result params _ => result :: params
  | .builtin | .record _ | .enum _ | .typedef _ => []

namespace SourceUnit

/-- Every identity that the unit mentions is a position of its table. -/
structure InRange (u : SourceUnit) : Prop where
  topLevel : ∀ d ∈ u.topLevel, d.index < u.decls.size
  declDecls : ∀ decl ∈ u.decls, ∀ d ∈ decl.kind.decls, d.index < u.decls.size
  declBody : ∀ decl ∈ u.decls, ∀ s ∈ decl.kind.body?, s.index < u.stmts.size
  declTypes : ∀ decl ∈ u.decls, ∀ t ∈ decl.kind.underlying?.toList ++ decl.type.toList,
    t.index < u.types.size
  stmtChildren : ∀ stmt ∈ u.stmts, ∀ s ∈ stmt.children, s.index < u.stmts.size
  stmtDecls : ∀ stmt ∈ u.stmts, ∀ d ∈ stmt.decls ++ stmt.referenced.toList, d.index < u.decls.size
  typeDecl : ∀ entry ∈ u.types, ∀ d ∈ entry.kind.decl?, d.index < u.decls.size
  typeParts : ∀ entry ∈ u.types, ∀ t ∈ entry.kind.parts, t.index < u.types.size

variable {u : SourceUnit}

theorem exists_decl {d : DeclId} (h : d.index < u.decls.size) : ∃ decl, u.decl? d = some decl :=
  ⟨u.decls[d.index], Array.getElem?_eq_getElem h⟩

theorem exists_stmt {s : StmtId} (h : s.index < u.stmts.size) : ∃ stmt, u.stmt? s = some stmt :=
  ⟨u.stmts[s.index], Array.getElem?_eq_getElem h⟩

theorem exists_type {t : TypeId} (h : t.index < u.types.size) : ∃ entry, u.type? t = some entry :=
  ⟨u.types[t.index], Array.getElem?_eq_getElem h⟩

theorem mem_decls_of_decl? {d : DeclId} {decl : Decl} (h : u.decl? d = some decl) : decl ∈ u.decls :=
  Array.mem_of_getElem? h

theorem exists_mem_of_typeKind? {t : TypeId} {k : TypeKind} (h : u.typeKind? t = some k) :
    ∃ entry ∈ u.types, entry.kind = k := by
  obtain ⟨entry, hEntry, rfl⟩ := Option.map_eq_some_iff.mp h
  exact ⟨entry, Array.mem_of_getElem? hEntry, rfl⟩

theorem exists_of_findInSugar {β : Type} {pick : TypeKind → Option β} {t : TypeId} {b : β}
    (h : u.findInSugar pick t = some b) : ∃ t' k, u.typeKind? t' = some k ∧ pick k = some b := by
  unfold findInSugar at h
  generalize u.stepLimit = n at h
  induction n generalizing t with
  | zero => cases h
  | succ n ih =>
      unfold Chain.findAlong at h
      split at h
      · next b' hPick =>
          cases h
          obtain ⟨k, hk, hb⟩ := Option.bind_eq_some_iff.mp hPick
          exact ⟨t, k, hk, hb⟩
      · obtain ⟨t', _, h⟩ := Option.bind_eq_some_iff.mp h
        exact ih h

theorem exists_of_mem_signatureRecords {t : TypeId} {d : DeclId} (h : d ∈ u.signatureRecords t) :
    ∃ t', u.referencedRecord t' = some d := by
  unfold signatureRecords at h
  cases hs : u.functionPointer t with
  | none => simp [hs] at h
  | some s =>
      simp only [hs, Option.map_some, Option.getD_some, List.mem_filterMap] at h
      obtain ⟨t', _, h⟩ := h
      exact ⟨t', h⟩

namespace InRange

variable (h : u.InRange)
include h

theorem recordDefinition_lt {d : DeclId} (hd : d.index < u.decls.size) :
    (u.recordDefinition d).index < u.decls.size := by
  unfold recordDefinition
  split
  · next definition hk =>
      obtain ⟨decl, hDecl, hKind⟩ := Option.map_eq_some_iff.mp hk
      refine h.declDecls decl (mem_decls_of_decl? hDecl) definition ?_
      rw [hKind]
      simp [DeclKind.decls]
  · exact hd

theorem decl_lt {t : TypeId} {k : TypeKind} {d : DeclId} (hk : u.typeKind? t = some k)
    (hd : k.decl? = some d) : d.index < u.decls.size := by
  obtain ⟨entry, hEntry, rfl⟩ := exists_mem_of_typeKind? hk
  exact h.typeDecl entry hEntry d hd

theorem recordDecl?_lt {t : TypeId} {d : DeclId} (hd : u.recordDecl? t = some d) :
    d.index < u.decls.size := by
  unfold recordDecl? at hd
  split at hd
  · next d' hk =>
      cases hd
      exact h.decl_lt hk rfl
  · cases hd

theorem referencedRecord_lt {t : TypeId} {d : DeclId} (hd : u.referencedRecord t = some d) :
    d.index < u.decls.size := by
  obtain ⟨d', hd', rfl⟩ := Option.map_eq_some_iff.mp hd
  exact h.recordDefinition_lt (h.recordDecl?_lt hd')

theorem asTypedef_lt {t : TypeId} {d : DeclId} (hd : u.asTypedef t = some d) :
    d.index < u.decls.size := by
  obtain ⟨t', k, hk, hPick⟩ := exists_of_findInSugar hd
  split at hPick
  · cases hPick
    exact h.decl_lt hk rfl
  · cases hPick

theorem referencedAlias_lt {t : TypeId} {d : DeclId} (hd : u.referencedAlias t = some d) :
    d.index < u.decls.size := by
  rcases Option.or_eq_some_iff.mp hd with hd | ⟨_, hd⟩
  · exact h.asTypedef_lt hd
  · exact h.asTypedef_lt hd

theorem namedEnum_lt {t : TypeId} {d : DeclId} (hd : u.namedEnum t = some d) :
    d.index < u.decls.size := by
  obtain ⟨t', k, hk, hPick⟩ := exists_of_findInSugar hd
  split at hPick
  · cases hPick
    exact h.decl_lt hk rfl
  · cases hPick

theorem signatureRecords_lt {t : TypeId} {d : DeclId} (hd : d ∈ u.signatureRecords t) :
    d.index < u.decls.size := by
  obtain ⟨t', hd⟩ := exists_of_mem_signatureRecords hd
  exact h.referencedRecord_lt hd

theorem recordOf?_lt {d r : DeclId} (hr : u.recordOf? d = some r) : r.index < u.decls.size := by
  obtain ⟨t, _, hr⟩ := Option.bind_eq_some_iff.mp hr
  exact h.referencedRecord_lt hr

theorem aliasOf?_lt {d a : DeclId} (ha : u.aliasOf? d = some a) : a.index < u.decls.size := by
  obtain ⟨t, _, ha⟩ := Option.bind_eq_some_iff.mp ha
  exact h.referencedAlias_lt ha

end InRange

end SourceUnit

/-- The unit of `struct cell { struct cell * next ; } ; int f ( struct cell * p ) { return p ; } int g ( ) ;`,
with every token at the location that is its position. -/
def cellUnit : SourceUnit where
  lexemes := ["struct", "cell", "\x7b", "struct", "cell", "*", "next", ";", "\x7d", ";", "int", "f", "(",
    "struct", "cell", "*", "p", ")", "\x7b", "return", "p", ";", "\x7d", "int", "g", "(", ")",
    ";"].mapIdx fun i text => ⟨"Token", text, i⟩
  decls := #[
    ⟨.record .struct [⟨1⟩] (some ⟨0⟩), .identifier "cell", 1, ⟨0, 8⟩, none⟩,
    ⟨.field, .identifier "next", 6, ⟨3, 6⟩, some ⟨1⟩⟩,
    ⟨.function [⟨3⟩] (some ⟨0⟩), .identifier "f", 11, ⟨10, 22⟩, some ⟨2⟩⟩,
    ⟨.param, .identifier "p", 16, ⟨13, 16⟩, some ⟨1⟩⟩,
    ⟨.function [] none, .identifier "g", 24, ⟨23, 26⟩, some ⟨2⟩⟩]
  stmts := #[
    ⟨"CompoundStmt", ⟨18, 22⟩, [⟨1⟩], [], none⟩,
    ⟨"ReturnStmt", ⟨19, 20⟩, [⟨2⟩], [], none⟩,
    ⟨"DeclRefExpr", ⟨20, 20⟩, [], [], some ⟨3⟩⟩]
  types := #[⟨.record ⟨0⟩, "struct cell"⟩, ⟨.pointer ⟨0⟩, "struct cell *"⟩, ⟨.builtin, "int"⟩]
  topLevel := [⟨0⟩, ⟨2⟩, ⟨4⟩]

theorem cellUnit_inRange : cellUnit.InRange := by
  constructor <;> decide

end UnitGraph
