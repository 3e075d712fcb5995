import UnitGraph.Extraction.Agenda

/-!
# Outlines of units

The outline of a unit is what is left of it without its tokens: no lexemes, and no places in the source. What
types denote and what declarations refer to can be read off the outline.
-/
namespace UnitGraph

/-- A declaration without its place in the source. -/
def Decl.outline (d : Decl) : Decl := { d with location := 0, range := ⟨0, 0⟩ }

/-- A statement without its place in the source. -/
def Stmt.outline (s : Stmt) : Stmt := { s with range := ⟨0, 0⟩ }

/-- A unit without its tokens and without places in the source. -/
def SourceUnit.outline (u : SourceUnit) : SourceUnit :=
  { u with
    lexemes := []
    decls := u.decls.map Decl.outline
    stmts := u.stmts.map Stmt.outline }

@[simp] theorem Decl.kind_outline (d : Decl) : d.outline.kind = d.kind := rfl
@[simp] theorem Decl.name_outline (d : Decl) : d.outline.name = d.name := rfl
@[simp] theorem Decl.type_outline (d : Decl) : d.outline.type = d.type := rfl
@[simp] theorem Decl.definition?_outline (d : Decl) : d.outline.definition? = d.definition? := rfl
@[simp] theorem Stmt.className_outline (s : Stmt) : s.outline.className = s.className := rfl
@[simp] theorem Stmt.children_outline (s : Stmt) : s.outline.children = s.children := rfl
@[simp] theorem Stmt.decls_outline (s : Stmt) : s.outline.decls = s.decls := rfl
@[simp] theorem Stmt.referenced_outline (s : Stmt) : s.outline.referenced = s.referenced := rfl

namespace SourceUnit

variable (u : SourceUnit)

@[simp] theorem topLevel_outline : u.outline.topLevel = u.topLevel := rfl
@[simp] theorem size_decls_outline : u.outline.decls.size = u.decls.size := Array.size_map
@[simp] theorem size_stmts_outline : u.outline.stmts.size = u.stmts.size := Array.size_map
@[simp] theorem typeKind?_outline : u.outline.typeKind? = u.typeKind? := rfl
@[simp] theorem spellingOf_outline : u.outline.spellingOf = u.spellingOf := rfl
@[simp] theorem stepLimit_outline : u.outline.stepLimit = u.stepLimit := rfl

@[simp] theorem decl?_outline (d : DeclId) : u.outline.decl? d = (u.decl? d).map Decl.outline :=
  Array.getElem?_map

@[simp] theorem stmt?_outline (s : StmtId) : u.outline.stmt? s = (u.stmt? s).map Stmt.outline :=
  Array.getElem?_map

@[simp] theorem declKind?_outline : u.outline.declKind? = u.declKind? := by
  funext d
  simp [declKind?, Function.comp_def]

@[simp] theorem nameOf_outline : u.outline.nameOf = u.nameOf := by
  funext d
  simp [nameOf, Function.comp_def]

@[simp] theorem underlying?_outline : u.outline.underlying? = u.underlying? := by
  funext d
  simp [underlying?]

@[simp] theorem desugar_outline : u.outline.desugar = u.desugar := by
  funext t
  simp [desugar]

@[simp] theorem canonical_outline : u.outline.canonical = u.canonical := by
  funext t
  simp [canonical]

@[simp] theorem findInSugar_outline {β : Type} (pick : TypeKind → Option β) :
    u.outline.findInSugar pick = u.findInSugar pick := by
  funext t
  simp [findInSugar]

@[simp] theorem pointee_outline : u.outline.pointee = u.pointee := by
  funext t
  simp [pointee]

@[simp] theorem stripPointers_outline : u.outline.stripPointers = u.stripPointers := by
  funext t
  simp [stripPointers]

@[simp] theorem recordDecl?_outline : u.outline.recordDecl? = u.recordDecl? := by
  funext t
  simp [recordDecl?]

@[simp] theorem recordDefinition_outline : u.outline.recordDefinition = u.recordDefinition := by
  funext d
  simp [recordDefinition]

@[simp] theorem referencedRecord_outline : u.outline.referencedRecord = u.referencedRecord := by
  funext t
  simp [referencedRecord]

@[simp] theorem asTypedef_outline : u.outline.asTypedef = u.asTypedef := by
  funext t
  simp [asTypedef]

@[simp] theorem referencedAlias_outline : u.outline.referencedAlias = u.referencedAlias := by
  funext t
  simp [referencedAlias]

@[simp] theorem namedEnum_outline : u.outline.namedEnum = u.namedEnum := by
  funext t
  simp [namedEnum]

@[simp] theorem functionPointer_outline : u.outline.functionPointer = u.functionPointer := by
  funext t
  simp [functionPointer]

@[simp] theorem isTypedefTarget_outline : u.outline.isTypedefTarget = u.isTypedefTarget := by
  funext d
  have hDecls : u.outline.decls = u.decls.map Decl.outline := rfl
  simp [isTypedefTarget, hDecls, Function.comp_def]

@[simp] theorem valueType?_outline : u.outline.valueType? = u.valueType? := by
  funext d
  rw [valueType?, valueType?, decl?_outline, Option.bind_map]
  rfl

@[simp] theorem recordOf?_outline : u.outline.recordOf? = u.recordOf? := by
  funext d
  simp [recordOf?]

@[simp] theorem aliasOf?_outline : u.outline.aliasOf? = u.aliasOf? := by
  funext d
  simp [aliasOf?]

@[simp] theorem fieldTypes_outline : u.outline.fieldTypes = u.fieldTypes := by
  funext d
  simp [fieldTypes, Option.bind_map, Function.comp_def]

@[simp] theorem signatureRecords_outline : u.outline.signatureRecords = u.signatureRecords := by
  funext t
  simp [signatureRecords]

@[simp] theorem shownType_outline : u.outline.shownType = u.shownType := by
  funext d
  simp [shownType]

@[simp] theorem fieldEntities_outline : u.outline.fieldEntities = u.fieldEntities := by
  funext t
  simp [fieldEntities]

end SourceUnit

end UnitGraph
