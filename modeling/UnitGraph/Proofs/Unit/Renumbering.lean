import Mathlib.Logic.Equiv.Fin.Basic
import Mathlib.Data.List.Nodup
import Mathlib.GroupTheory.Perm.Basic
import UnitGraph.Extraction.Agenda

/-!
# Renumbered units

The entries of the three tables of a unit can be put into any other order, if every identity that the unit
stores follows. What types denote and what declarations refer to is then the same under the new numbers, also
where a bounded walk stops on a cycle.
-/
namespace UnitGraph

namespace Chain

variable {α β γ δ : Type} {step : α → Option α} {step' : β → Option β} {f : α → β}

theorem follow_map (hStep : ∀ a, step' (f a) = (step a).map f) (n : Nat) (a : α) :
    follow step' n (f a) = f (follow step n a) := by
  induction n generalizing a with
  | zero => rfl
  | succ n ih =>
      rw [follow, follow, hStep]
      cases step a with
      | none => rfl
      | some b => exact ih b

theorem findAlong_map {pick : α → Option γ} {pick' : β → Option δ} {g : γ → δ}
    (hStep : ∀ a, step' (f a) = (step a).map f) (hPick : ∀ a, pick' (f a) = (pick a).map g) (n : Nat) (a : α) :
    findAlong step' pick' n (f a) = (findAlong step pick n a).map g := by
  induction n generalizing a with
  | zero => rfl
  | succ n ih =>
      rw [findAlong, findAlong, hPick, hStep]
      cases pick a with
      | some c => rfl
      | none =>
          cases step a with
          | none => rfl
          | some b => exact ih b

end Chain

/-- Two partial steps under other names, if each of them is the same step under other names. -/
theorem bind_eq_map_bind {β γ β' γ' : Type} {x : Option β} {x' : Option β'} {k : β → Option γ}
    {k' : β' → Option γ'} {f : β → β'} {g : γ → γ'} (hx : x' = x.map f) (hk : ∀ b, k' (f b) = (k b).map g) :
    x'.bind k' = (x.bind k).map g := by
  subst hx
  cases x with
  | none => rfl
  | some b => exact hk b

section Tables
variable {γ : Type}

/-- A permutation of the positions of a table moves no other number. -/
def renumber {n : Nat} (σ : Equiv.Perm (Fin n)) : Equiv.Perm Nat := σ.extendDomain Fin.equivSubtype

/-- A table whose entries have moved to other positions. -/
def permuted (xs : Array γ) (σ : Equiv.Perm (Fin xs.size)) : Array γ := Array.ofFn fun i => xs[σ.symm i]

@[simp] theorem size_permuted (xs : Array γ) (σ : Equiv.Perm (Fin xs.size)) : (permuted xs σ).size = xs.size :=
  Array.size_ofFn

theorem getElem?_permuted (xs : Array γ) (σ : Equiv.Perm (Fin xs.size)) (i : Nat) :
    (permuted xs σ)[renumber σ i]? = xs[i]? := by
  by_cases hi : i < xs.size
  · have hMoved : renumber σ i = σ ⟨i, hi⟩ :=
      Equiv.Perm.extendDomain_apply_image σ Fin.equivSubtype ⟨i, hi⟩
    rw [hMoved, Array.getElem?_eq_getElem (by simp), Array.getElem?_eq_getElem hi]
    simp [permuted]
  · have hFixed : renumber σ i = i := Equiv.Perm.extendDomain_apply_not_subtype σ Fin.equivSubtype hi
    rw [hFixed, Array.getElem?_eq_none (by simpa using hi), Array.getElem?_eq_none (by simpa using hi)]

theorem mem_permuted {xs : Array γ} {σ : Equiv.Perm (Fin xs.size)} {x : γ} : x ∈ permuted xs σ ↔ x ∈ xs := by
  simp only [Array.mem_iff_getElem?]
  constructor
  · rintro ⟨i, hi⟩
    refine ⟨(renumber σ).symm i, ?_⟩
    rw [← getElem?_permuted xs σ, Equiv.apply_symm_apply, hi]
  · rintro ⟨i, hi⟩
    exact ⟨renumber σ i, (getElem?_permuted xs σ i).trans hi⟩

end Tables

namespace SourceUnit

/-- Other positions for the entries of the three tables of a unit, independent of one another. -/
structure Renumbering (u : SourceUnit) where
  decls : Equiv.Perm (Fin u.decls.size)
  stmts : Equiv.Perm (Fin u.stmts.size)
  types : Equiv.Perm (Fin u.types.size)

namespace Renumbering

variable {u : SourceUnit} (ρ : u.Renumbering)

def decl (d : DeclId) : DeclId := ⟨UnitGraph.renumber ρ.decls d.index⟩

def stmt (s : StmtId) : StmtId := ⟨UnitGraph.renumber ρ.stmts s.index⟩

def type (t : TypeId) : TypeId := ⟨UnitGraph.renumber ρ.types t.index⟩

theorem decl_injective : Function.Injective ρ.decl := by
  intro d d' h
  have hIndex := (UnitGraph.renumber ρ.decls).injective (DeclId.mk.inj h)
  cases d
  cases d'
  exact congrArg DeclId.mk hIndex

theorem stmt_injective : Function.Injective ρ.stmt := by
  intro s s' h
  have hIndex := (UnitGraph.renumber ρ.stmts).injective (StmtId.mk.inj h)
  cases s
  cases s'
  exact congrArg StmtId.mk hIndex

def declKind : DeclKind → DeclKind
  | .function params body => .function (params.map ρ.decl) (body.map ρ.stmt)
  | .var => .var
  | .param => .param
  | .field => .field
  | .enumConstant => .enumConstant
  | .typedef t => .typedef (ρ.type t)
  | .record tag fields definition => .record tag (fields.map ρ.decl) (definition.map ρ.decl)
  | .enum constants => .enum (constants.map ρ.decl)

def declEntry (d : Decl) : Decl := { d with kind := ρ.declKind d.kind, type := d.type.map ρ.type }

def stmtEntry (s : Stmt) : Stmt :=
  { s with
    children := s.children.map ρ.stmt
    decls := s.decls.map ρ.decl
    referenced := s.referenced.map ρ.decl }

def typeKind : TypeKind → TypeKind
  | .builtin => .builtin
  | .pointer t => .pointer (ρ.type t)
  | .array t size => .array (ρ.type t) size
  | .record d => .record (ρ.decl d)
  | .enum d => .enum (ρ.decl d)
  | .typedef d => .typedef (ρ.decl d)
  | .elaborated t => .elaborated (ρ.type t)
  | .paren t => .paren (ρ.type t)
  | .functionProto result params variadic => .functionProto (ρ.type result) (params.map ρ.type) variadic

def typeEntry (t : TypeEntry) : TypeEntry := { t with kind := ρ.typeKind t.kind }

def signature (s : Signature) : Signature := ⟨ρ.type s.result, s.params.map ρ.type⟩

@[simp] theorem kind_declEntry (d : Decl) : (ρ.declEntry d).kind = ρ.declKind d.kind := rfl
@[simp] theorem name_declEntry (d : Decl) : (ρ.declEntry d).name = d.name := rfl
@[simp] theorem location_declEntry (d : Decl) : (ρ.declEntry d).location = d.location := rfl
@[simp] theorem range_declEntry (d : Decl) : (ρ.declEntry d).range = d.range := rfl
@[simp] theorem type_declEntry (d : Decl) : (ρ.declEntry d).type = d.type.map ρ.type := rfl
@[simp] theorem className_stmtEntry (s : Stmt) : (ρ.stmtEntry s).className = s.className := rfl
@[simp] theorem range_stmtEntry (s : Stmt) : (ρ.stmtEntry s).range = s.range := rfl
@[simp] theorem children_stmtEntry (s : Stmt) : (ρ.stmtEntry s).children = s.children.map ρ.stmt := rfl
@[simp] theorem decls_stmtEntry (s : Stmt) : (ρ.stmtEntry s).decls = s.decls.map ρ.decl := rfl
@[simp] theorem referenced_stmtEntry (s : Stmt) : (ρ.stmtEntry s).referenced = s.referenced.map ρ.decl := rfl
@[simp] theorem kind_typeEntry (t : TypeEntry) : (ρ.typeEntry t).kind = ρ.typeKind t.kind := rfl
@[simp] theorem spelling_typeEntry (t : TypeEntry) : (ρ.typeEntry t).spelling = t.spelling := rfl

@[simp] theorem name_declKind (k : DeclKind) : (ρ.declKind k).name = k.name := by
  cases k <;> rfl

@[simp] theorem isValue_declKind (k : DeclKind) : (ρ.declKind k).isValue = k.isValue := by
  cases k <;> rfl

@[simp] theorem className_typeKind (k : TypeKind) : (ρ.typeKind k).className = k.className := by
  cases k with
  | array t size => cases size <;> rfl
  | _ => rfl

theorem definition?_declEntry (d : Decl) :
    (ρ.declEntry d).definition? = d.definition?.map fun x => (x.1.map ρ.decl, ρ.stmt x.2) := by
  obtain ⟨kind, name, location, range, type⟩ := d
  cases kind with
  | function params body => cases body <;> cases name <;> rfl
  | _ => rfl

end Renumbering

/-- The unit with its tables in another order, and every identity in it following. -/
def renumber (u : SourceUnit) (ρ : u.Renumbering) : SourceUnit where
  lexemes := u.lexemes
  decls := (permuted u.decls ρ.decls).map ρ.declEntry
  stmts := (permuted u.stmts ρ.stmts).map ρ.stmtEntry
  types := (permuted u.types ρ.types).map ρ.typeEntry
  topLevel := u.topLevel.map ρ.decl

variable {u : SourceUnit} (ρ : u.Renumbering)

@[simp] theorem decl?_renumber (d : DeclId) : (u.renumber ρ).decl? (ρ.decl d) = (u.decl? d).map ρ.declEntry := by
  rw [decl?, renumber, Array.getElem?_map, Renumbering.decl, getElem?_permuted, decl?]

@[simp] theorem stmt?_renumber (s : StmtId) : (u.renumber ρ).stmt? (ρ.stmt s) = (u.stmt? s).map ρ.stmtEntry := by
  rw [stmt?, renumber, Array.getElem?_map, Renumbering.stmt, getElem?_permuted, stmt?]

@[simp] theorem type?_renumber (t : TypeId) : (u.renumber ρ).type? (ρ.type t) = (u.type? t).map ρ.typeEntry := by
  rw [type?, renumber, Array.getElem?_map, Renumbering.type, getElem?_permuted, type?]

@[simp] theorem topLevel_renumber : (u.renumber ρ).topLevel = u.topLevel.map ρ.decl := rfl

@[simp] theorem stepLimit_renumber : (u.renumber ρ).stepLimit = u.stepLimit := by
  simp [stepLimit, typeCount, renumber]

@[simp] theorem declKind?_renumber (d : DeclId) :
    (u.renumber ρ).declKind? (ρ.decl d) = (u.declKind? d).map ρ.declKind := by
  simp [declKind?, Function.comp_def]

@[simp] theorem typeKind?_renumber (t : TypeId) :
    (u.renumber ρ).typeKind? (ρ.type t) = (u.typeKind? t).map ρ.typeKind := by
  simp [typeKind?, Function.comp_def]

@[simp] theorem nameOf_renumber (d : DeclId) : (u.renumber ρ).nameOf (ρ.decl d) = u.nameOf d := by
  simp [nameOf, Function.comp_def]

@[simp] theorem spellingOf_renumber (t : TypeId) : (u.renumber ρ).spellingOf (ρ.type t) = u.spellingOf t := by
  simp [spellingOf, Function.comp_def]

@[simp] theorem underlying?_renumber (d : DeclId) :
    (u.renumber ρ).underlying? (ρ.decl d) = (u.underlying? d).map ρ.type := by
  rw [underlying?, underlying?, declKind?_renumber]
  cases u.declKind? d with
  | none => rfl
  | some k => cases k <;> rfl

theorem desugar_renumber (t : TypeId) : (u.renumber ρ).desugar (ρ.type t) = (u.desugar t).map ρ.type := by
  rw [desugar, desugar, typeKind?_renumber]
  cases u.typeKind? t with
  | none => rfl
  | some k =>
      cases k with
      | typedef d => exact underlying?_renumber ρ d
      | _ => rfl

@[simp] theorem canonical_renumber (t : TypeId) :
    (u.renumber ρ).canonical (ρ.type t) = ρ.type (u.canonical t) := by
  rw [canonical, canonical, stepLimit_renumber]
  exact Chain.follow_map (desugar_renumber ρ) _ t

theorem findInSugar_renumber {β γ : Type} {pick : TypeKind → Option β} {pick' : TypeKind → Option γ} {g : β → γ}
    (hPick : ∀ k, pick' (ρ.typeKind k) = (pick k).map g) (t : TypeId) :
    (u.renumber ρ).findInSugar pick' (ρ.type t) = (u.findInSugar pick t).map g := by
  rw [findInSugar, findInSugar, stepLimit_renumber]
  refine Chain.findAlong_map (desugar_renumber ρ) (fun t => ?_) _ t
  rw [typeKind?_renumber]
  cases u.typeKind? t with
  | none => rfl
  | some k => exact hPick k

@[simp] theorem pointee_renumber (t : TypeId) : (u.renumber ρ).pointee (ρ.type t) = (u.pointee t).map ρ.type := by
  rw [pointee, pointee, canonical_renumber, typeKind?_renumber]
  cases u.typeKind? (u.canonical t) with
  | none => rfl
  | some k => cases k <;> rfl

@[simp] theorem stripPointers_renumber (t : TypeId) :
    (u.renumber ρ).stripPointers (ρ.type t) = ρ.type (u.stripPointers t) := by
  rw [stripPointers, stripPointers, stepLimit_renumber]
  exact Chain.follow_map (pointee_renumber ρ) _ t

@[simp] theorem recordDecl?_renumber (t : TypeId) :
    (u.renumber ρ).recordDecl? (ρ.type t) = (u.recordDecl? t).map ρ.decl := by
  rw [recordDecl?, recordDecl?, canonical_renumber, typeKind?_renumber]
  cases u.typeKind? (u.canonical t) with
  | none => rfl
  | some k => cases k <;> rfl

@[simp] theorem recordDefinition_renumber (d : DeclId) :
    (u.renumber ρ).recordDefinition (ρ.decl d) = ρ.decl (u.recordDefinition d) := by
  rw [recordDefinition, recordDefinition, declKind?_renumber]
  cases u.declKind? d with
  | none => rfl
  | some k =>
      cases k with
      | record tag fields definition => cases definition <;> rfl
      | _ => rfl

@[simp] theorem referencedRecord_renumber (t : TypeId) :
    (u.renumber ρ).referencedRecord (ρ.type t) = (u.referencedRecord t).map ρ.decl := by
  simp [referencedRecord, Function.comp_def]

@[simp] theorem asTypedef_renumber (t : TypeId) :
    (u.renumber ρ).asTypedef (ρ.type t) = (u.asTypedef t).map ρ.decl := by
  refine findInSugar_renumber ρ (fun k => ?_) t
  cases k <;> rfl

@[simp] theorem referencedAlias_renumber (t : TypeId) :
    (u.renumber ρ).referencedAlias (ρ.type t) = (u.referencedAlias t).map ρ.decl := by
  simp [referencedAlias, Option.map_or]

@[simp] theorem namedEnum_renumber (t : TypeId) :
    (u.renumber ρ).namedEnum (ρ.type t) = (u.namedEnum t).map ρ.decl := by
  refine findInSugar_renumber ρ (fun k => ?_) t
  cases k <;> rfl

/-- The outermost parenthesis among the sugar of a type. -/
theorem findParen_renumber (t : TypeId) :
    (u.renumber ρ).findInSugar (fun | .paren inner => some inner | _ => none) (ρ.type t) =
      (u.findInSugar (fun | .paren inner => some inner | _ => none) t).map ρ.type := by
  refine findInSugar_renumber ρ (fun k => ?_) t
  cases k <;> rfl

theorem typeSignature_renumber (t : TypeId) :
    (match (u.renumber ρ).typeKind? ((u.renumber ρ).canonical (ρ.type t)) with
      | some (.functionProto result params _) => some (⟨result, params⟩ : Signature)
      | _ => none) =
    (match u.typeKind? (u.canonical t) with
      | some (.functionProto result params _) => some (⟨result, params⟩ : Signature)
      | _ => none).map ρ.signature := by
  rw [canonical_renumber, typeKind?_renumber]
  cases u.typeKind? (u.canonical t) with
  | none => rfl
  | some k => cases k <;> rfl

@[simp] theorem functionPointer_renumber (t : TypeId) :
    (u.renumber ρ).functionPointer (ρ.type t) = (u.functionPointer t).map ρ.signature := by
  refine bind_eq_map_bind (pointee_renumber ρ t) fun p => ?_
  exact bind_eq_map_bind (findParen_renumber ρ p) (typeSignature_renumber ρ)

/-- Whether some typedef names a record does not depend on the order of the table. -/
@[simp] theorem isTypedefTarget_renumber (d : DeclId) :
    (u.renumber ρ).isTypedefTarget (ρ.decl d) = u.isTypedefTarget d := by
  have hAny (p : Decl → Bool) : (permuted u.decls ρ.decls).any p = u.decls.any p := by
    rw [Bool.eq_iff_iff, Array.any_eq_true', Array.any_eq_true']
    simp only [mem_permuted]
  rw [isTypedefTarget, isTypedefTarget, ← hAny, renumber, Array.any_map, ← renumber]
  congr 1
  funext decl
  simp only [Function.comp_apply, Renumbering.kind_declEntry]
  cases decl.kind with
  | typedef t =>
      simp only [Renumbering.declKind, recordDecl?_renumber, Option.any_map,
        recordDefinition_renumber, ρ.decl_injective.eq_iff]
  | _ => rfl

theorem valueType?_renumber (d : DeclId) :
    (u.renumber ρ).valueType? (ρ.decl d) = (u.valueType? d).map ρ.type := by
  rw [valueType?, valueType?, decl?_renumber]
  cases u.decl? d with
  | none => rfl
  | some decl =>
      simp only [Option.map_some, Option.bind_some, Renumbering.kind_declEntry, Renumbering.isValue_declKind]
      split <;> rfl

@[simp] theorem recordOf?_renumber (d : DeclId) :
    (u.renumber ρ).recordOf? (ρ.decl d) = (u.recordOf? d).map ρ.decl := by
  simp only [recordOf?, valueType?_renumber, Option.bind_map, Option.map_bind, Function.comp_def,
    referencedRecord_renumber]

@[simp] theorem aliasOf?_renumber (d : DeclId) :
    (u.renumber ρ).aliasOf? (ρ.decl d) = (u.aliasOf? d).map ρ.decl := by
  simp only [aliasOf?, valueType?_renumber, Option.bind_map, Option.map_bind, Function.comp_def,
    referencedAlias_renumber]

@[simp] theorem fieldTypes_renumber (d : DeclId) :
    (u.renumber ρ).fieldTypes (ρ.decl d) = (u.fieldTypes d).map ρ.type := by
  rw [fieldTypes, fieldTypes, declKind?_renumber]
  cases u.declKind? d with
  | none => rfl
  | some k =>
      cases k with
      | record tag fields definition =>
          simp only [Option.map_some, Renumbering.declKind, List.filterMap_map, List.map_filterMap]
          refine List.filterMap_congr fun f _ => ?_
          simp only [Function.comp_apply, decl?_renumber, Option.bind_map, Option.map_bind, Function.comp_def,
            Renumbering.type_declEntry]
      | _ => rfl

@[simp] theorem signatureRecords_renumber (t : TypeId) :
    (u.renumber ρ).signatureRecords (ρ.type t) = (u.signatureRecords t).map ρ.decl := by
  rw [signatureRecords, signatureRecords, functionPointer_renumber]
  cases u.functionPointer t with
  | none => rfl
  | some s =>
      have hTypes : (ρ.signature s).types = s.types.map ρ.type := rfl
      simp [hTypes, List.filterMap_map, List.map_filterMap]

@[simp] theorem shownType_renumber (d : DeclId) : (u.renumber ρ).shownType (ρ.decl d) = u.shownType d := by
  rw [shownType, shownType, underlying?_renumber, valueType?_renumber]
  cases u.underlying? d with
  | none => simp [Function.comp_def]
  | some t => simp [Function.comp_def]

end SourceUnit

end UnitGraph
