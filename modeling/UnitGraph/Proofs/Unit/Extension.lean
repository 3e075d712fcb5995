import UnitGraph.Proofs.Unit.Searches

/-!
# Units with more types

New types at the end of the table leave the old ones as they are, but they raise the step limit of every walk and
every search. A type is grounded if sugar and pointers lead from it to types of the table only, as they do from
every type of a unit in range. Main statement: on a grounded type each walk and each search answers the same
once there are more types, also where it stops at another place of a cycle.
-/
namespace UnitGraph.SourceUnit

open Relation

/-- The same declarations, and each type of the other unit as it is there. -/
structure Extends (v u : SourceUnit) : Prop where
  decls : v.decls = u.decls
  types : ∀ t entry, u.type? t = some entry → v.type? t = some entry

/-- Sugar and pointers lead from the type to types of the table only. -/
def Grounded (u : SourceUnit) (t : TypeId) : Prop :=
  ∀ t', ReflTransGen u.WalkStep t t' → t'.index < u.typeCount

variable {u v w : SourceUnit} {t t' : TypeId}

section Grounded

theorem Grounded.of_reaches (h : u.Grounded t) (hReach : Chain.Reaches u.advance? t t') : u.Grounded t' :=
  fun _ hRest => h _ ((reaches_advance_iff.mp hReach).trans hRest)

theorem Grounded.advance (h : u.Grounded t) (hStep : u.advance? t = some t') : u.Grounded t' :=
  h.of_reaches (.head hStep (.refl t'))

theorem Grounded.desugar (h : u.Grounded t) (hStep : u.desugar t = some t') : u.Grounded t' :=
  h.advance (advance?_of_desugar hStep)

theorem Grounded.pointee (h : u.Grounded t) (hStep : u.pointee t = some t') : u.Grounded t' :=
  h.of_reaches (reaches_advance_of_pointee (.head hStep (.refl t')))

theorem InRange.grounded (h : u.InRange) (ht : t.index < u.typeCount) : u.Grounded t := by
  intro t' hReach
  cases hReach with
  | refl => exact ht
  | tail _ hStep => exact h.walkStep_lt hStep

end Grounded

namespace Extends

theorem refl (u : SourceUnit) : u.Extends u := ⟨rfl, fun _ _ h => h⟩

theorem trans (h : w.Extends v) (h' : v.Extends u) : w.Extends u :=
  ⟨h.decls.trans h'.decls, fun t entry ht => h.types t entry (h'.types t entry ht)⟩

variable (h : v.Extends u)
include h

theorem declKind?_eq (d : DeclId) : v.declKind? d = u.declKind? d := by
  rw [declKind?, decl?, h.decls]
  rfl

theorem recordDefinition_eq (d : DeclId) : v.recordDefinition d = u.recordDefinition d := by
  rw [recordDefinition, h.declKind?_eq]
  rfl

section Steps

theorem type?_eq (ht : u.Grounded t) : v.type? t = u.type? t := by
  obtain ⟨entry, hEntry⟩ := exists_type (ht t .refl)
  rw [hEntry, h.types t entry hEntry]

theorem typeKind?_eq (ht : u.Grounded t) : v.typeKind? t = u.typeKind? t := by
  rw [typeKind?, typeKind?, h.type?_eq ht]

theorem desugar_eq (ht : u.Grounded t) : v.desugar t = u.desugar t := by
  simp only [desugar, underlying?, h.typeKind?_eq ht, h.declKind?_eq]

theorem advance?_eq (ht : u.Grounded t) : v.advance? t = u.advance? t := by
  simp only [advance?, h.typeKind?_eq ht, h.desugar_eq ht]

theorem sugarStep_iff (ht : u.Grounded t) : v.SugarStep t t' ↔ u.SugarStep t t' := by
  rw [← desugar_eq_some_iff, ← desugar_eq_some_iff, h.desugar_eq ht]

theorem reaches_desugar_iff (ht : u.Grounded t) :
    Chain.Reaches v.desugar t t' ↔ Chain.Reaches u.desugar t t' :=
  Chain.reaches_congr (fun _ _ => Grounded.desugar) (fun _ => h.desugar_eq) ht

theorem reaches_advance_iff (ht : u.Grounded t) :
    Chain.Reaches v.advance? t t' ↔ Chain.Reaches u.advance? t t' :=
  Chain.reaches_congr (fun _ _ => Grounded.advance) (fun _ => h.advance?_eq) ht

/-- Sugar leads to a type of some kind just if it did before. -/
theorem sugar_leads_iff (ht : u.Grounded t) {k : TypeKind} :
    (∃ e, Chain.Reaches v.desugar t e ∧ v.typeKind? e = some k) ↔
      ∃ e, Chain.Reaches u.desugar t e ∧ u.typeKind? e = some k := by
  refine exists_congr fun e => ?_
  rw [h.reaches_desugar_iff ht]
  refine and_congr_right fun hReach => ?_
  rw [h.typeKind?_eq (ht.of_reaches (reaches_advance_of_desugar hReach))]

end Steps

theorem grounded (ht : u.Grounded t) : v.Grounded t := by
  intro t' hReach
  have hReach := (h.reaches_advance_iff ht).mp (SourceUnit.reaches_advance_iff.mpr hReach)
  obtain ⟨entry, hEntry⟩ := exists_type (ht.of_reaches hReach t' .refl)
  exact (Array.getElem?_eq_some_iff.mp (h.types t' entry hEntry)).1

section Answers

theorem recordDecl?_eq (ht : u.Grounded t) : v.recordDecl? t = u.recordDecl? t := by
  ext d
  rw [recordDecl?_eq_some_iff, recordDecl?_eq_some_iff, h.sugar_leads_iff ht]

theorem pointee_eq (ht : u.Grounded t) : v.pointee t = u.pointee t := by
  ext p
  rw [pointee_eq_some_iff, pointee_eq_some_iff, h.sugar_leads_iff ht]

theorem reaches_pointee_iff (ht : u.Grounded t) :
    Chain.Reaches v.pointee t t' ↔ Chain.Reaches u.pointee t t' :=
  Chain.reaches_congr (fun _ _ => Grounded.pointee) (fun _ => h.pointee_eq) ht

theorem referencedRecord_eq (ht : u.Grounded t) : v.referencedRecord t = u.referencedRecord t := by
  ext d
  rw [referencedRecord_eq_some_iff, referencedRecord_eq_some_iff]
  refine exists_congr fun e => exists_congr fun r => ?_
  rw [h.reaches_advance_iff ht, h.recordDefinition_eq]
  refine and_congr_right fun hReach => ?_
  rw [h.typeKind?_eq (ht.of_reaches hReach)]

theorem findInSugar_eq {β : Type} (pick : TypeKind → Option β) (ht : u.Grounded t) :
    v.findInSugar pick t = u.findInSugar pick t := by
  ext b
  rw [findInSugar_iff_first, findInSugar_iff_first]
  refine Chain.first_congr (s := u.Grounded) (fun a a' ha hab => ?_) (fun a a' ha => ?_) (fun a ha => ?_) ht
  · exact ha.desugar (desugar_eq_some_iff.mpr hab)
  · exact h.sugarStep_iff ha
  · rw [picked, picked, h.typeKind?_eq ha]

theorem asTypedef_eq (ht : u.Grounded t) : v.asTypedef t = u.asTypedef t := h.findInSugar_eq _ ht

theorem namedEnum_eq (ht : u.Grounded t) : v.namedEnum t = u.namedEnum t := h.findInSugar_eq _ ht

theorem hasSignature_canonical_iff (ht : u.Grounded t) {s : Signature} :
    v.HasSignature (v.canonical t) s ↔ u.HasSignature (u.canonical t) s := by
  rw [SourceUnit.hasSignature_canonical_iff, SourceUnit.hasSignature_canonical_iff]
  exact exists_congr fun variadic => h.sugar_leads_iff ht

theorem functionPointer_eq (ht : u.Grounded t) : v.functionPointer t = u.functionPointer t := by
  ext s
  rw [functionPointer_iff_search, functionPointer_iff_search]
  refine exists_congr fun p => exists_congr fun inner => ?_
  rw [h.pointee_eq ht]
  refine and_congr_right fun hp => ?_
  have hPointee := ht.pointee hp
  rw [h.findInSugar_eq _ hPointee]
  refine and_congr_right fun hFound => ?_
  obtain ⟨q, hq, hParen⟩ := reads_paren.exists_of_findInSugar hFound
  have hInner := hq.tail (.paren hParen)
  exact h.hasSignature_canonical_iff
    (hPointee.of_reaches (reaches_advance_of_desugar (SourceUnit.reaches_desugar_iff.mpr hInner)))

end Answers

end Extends

end UnitGraph.SourceUnit
