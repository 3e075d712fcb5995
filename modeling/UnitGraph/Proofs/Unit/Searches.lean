import UnitGraph.Proofs.Unit.Aliases

/-!
# Searches and walks along sugar

A search stops at the first hit, a walk at the end of the chain, and each has a bound of its own. Main statement:
on every unit the two agree. What is no sugar is found just if the walk ends there, an alias is found just if
the chain has one, and the signature behind a pointer is that of the type where the walk from the pointee ends,
if a parenthesis comes before it.
-/
namespace UnitGraph.SourceUnit

open Relation

/-- A search accepts the kinds of one constructor and answers with what they hold. -/
def Reads {β : Type} (pick : TypeKind → Option β) (make : β → TypeKind) : Prop :=
  ∀ k b, pick k = some b ↔ k = make b

/-- The type is that of functions with a signature. -/
def HasSignature (u : SourceUnit) (t : TypeId) (s : Signature) : Prop :=
  ∃ variadic, u.typeKind? t = some (.functionProto s.result s.params variadic)

variable {u : SourceUnit} {t t' p inner : TypeId} {d : DeclId} {s : Signature}

section Search
variable {β : Type} {pick : TypeKind → Option β} {make : β → TypeKind} {b : β}

namespace Reads

variable (h : Reads pick make)
include h

theorem picked_iff : u.picked pick t = some b ↔ u.typeKind? t = some (make b) := by
  rw [picked, Option.bind_eq_some_iff]
  constructor
  · rintro ⟨k, hk, hb⟩
    rw [hk, (h k b).mp hb]
  · intro hk
    exact ⟨_, hk, (h _ b).mpr rfl⟩

theorem make_injective {b' : β} (hEq : make b = make b') : b = b' :=
  Option.some.inj (((h _ b).mpr hEq.symm).symm.trans ((h _ b').mpr rfl))

theorem exists_of_findInSugar (hFound : u.findInSugar pick t = some b) :
    ∃ t', ReflTransGen u.SugarStep t t' ∧ u.typeKind? t' = some (make b) := by
  obtain ⟨t', hReach, hHit⟩ := (findInSugar_iff_first.mp hFound).exists_hit
  exact ⟨t', hReach, h.picked_iff.mp hHit⟩

theorem exists_findInSugar (hReach : ReflTransGen u.SugarStep t t') (hk : u.typeKind? t' = some (make b)) :
    ∃ b', u.findInSugar pick t = some b' := by
  obtain ⟨b', hFirst⟩ := Chain.exists_first hReach (h.picked_iff.mpr hk)
  exact ⟨b', findInSugar_iff_first.mpr hFirst⟩

theorem findInSugar_eq_none_iff : u.findInSugar pick t = none ↔
    ∀ t' b, ReflTransGen u.SugarStep t t' → u.typeKind? t' ≠ some (make b) := by
  constructor
  · intro hNone t' b hReach hk
    obtain ⟨b', hFound⟩ := h.exists_findInSugar hReach hk
    cases hNone.symm.trans hFound
  · intro hNone
    refine Option.eq_none_iff_forall_ne_some.mpr fun b hFound => ?_
    obtain ⟨t', hReach, hk⟩ := h.exists_of_findInSugar hFound
    exact hNone t' b hReach hk

/-- What is no sugar is found just if the walk ends there. -/
theorem findInSugar_iff_canonical (hEnd : ∀ t b, u.typeKind? t = some (make b) → u.desugar t = none) :
    u.findInSugar pick t = some b ↔ u.typeKind? (u.canonical t) = some (make b) := by
  have hCanonical : ∀ b, u.findInSugar pick t = some b → u.typeKind? (u.canonical t) = some (make b) := by
    intro b hFound
    obtain ⟨t', hReach, hk⟩ := h.exists_of_findInSugar hFound
    rwa [canonical_of_end (reaches_desugar_iff.mpr hReach) (hEnd t' b hk)]
  refine ⟨hCanonical b, fun hk => ?_⟩
  obtain ⟨b', hFound⟩ := h.exists_findInSugar (reaches_desugar_iff.mp (u.reaches_canonical t)) hk
  have hSame := Option.some.inj (hk.symm.trans (hCanonical b' hFound))
  rw [hFound, h.make_injective hSame]

end Reads

theorem reads_enum : Reads (fun | .enum d => some d | _ => none) .enum := by
  intro k d
  cases k <;> simp

theorem reads_typedef : Reads (fun | .typedef d => some d | _ => none) .typedef := by
  intro k d
  cases k <;> simp

theorem reads_paren : Reads (fun | .paren inner => some inner | _ => none) .paren := by
  intro k inner
  cases k <;> simp

end Search

section FunctionPointers

theorem HasSignature.desugar_eq_none (h : u.HasSignature t s) : u.desugar t = none := by
  obtain ⟨variadic, hk⟩ := h
  simp [desugar, hk]

theorem hasSignature_canonical_iff : u.HasSignature (u.canonical t) s ↔
    ∃ variadic e, Chain.Reaches u.desugar t e ∧
      u.typeKind? e = some (.functionProto s.result s.params variadic) :=
  exists_congr fun variadic => typeKind?_canonical_iff fun _ hk =>
    HasSignature.desugar_eq_none ⟨variadic, hk⟩

/-- What the walk comes to from a type of the chain, it comes to from the beginning. -/
theorem canonical_eq_of_sugar (hReach : ReflTransGen u.SugarStep t t') (hEnd : u.desugar (u.canonical t') = none) :
    u.canonical t = u.canonical t' :=
  canonical_of_end ((reaches_desugar_iff.mpr hReach).trans (u.reaches_canonical t')) hEnd

/-- The search for a signature: the first parenthesis behind the pointer, then the end of what it encloses. -/
theorem functionPointer_iff_search : u.functionPointer t = some s ↔ ∃ p inner, u.pointee t = some p ∧
    u.findInSugar (fun | .paren inner => some inner | _ => none) p = some inner ∧
    u.HasSignature (u.canonical inner) s := by
  simp only [functionPointer, Option.bind_eq_bind, Option.bind_eq_some_iff]
  constructor
  · rintro ⟨p, hp, inner, hFound, hs⟩
    refine ⟨p, inner, hp, hFound, ?_⟩
    split at hs
    · next result params variadic hk =>
        cases hs
        exact ⟨variadic, hk⟩
    · cases hs
  · rintro ⟨p, inner, hp, hFound, variadic, hk⟩
    exact ⟨p, hp, inner, hFound, by rw [hk]⟩

theorem functionPointer_iff_canonical : u.functionPointer t = some s ↔ ∃ p, u.pointee t = some p ∧
    u.HasSignature (u.canonical p) s ∧ ∃ q inner, ReflTransGen u.SugarStep p q ∧
      TransGen u.SugarStep q (u.canonical p) ∧ u.typeKind? q = some (.paren inner) := by
  rw [functionPointer_iff_search]
  constructor
  · rintro ⟨p, inner, hp, hFound, hSignature⟩
    obtain ⟨q, hq, hParen⟩ := reads_paren.exists_of_findInSugar hFound
    have hSame := canonical_eq_of_sugar (hq.tail (.paren hParen)) hSignature.desugar_eq_none
    rw [← hSame] at hSignature
    refine ⟨p, hp, hSignature, q, inner, hq, TransGen.head' (.paren hParen) ?_, hParen⟩
    rw [hSame]
    exact reaches_desugar_iff.mp (u.reaches_canonical inner)
  · rintro ⟨p, hp, hSignature, q, inner, hq, -, hParen⟩
    obtain ⟨first, hFound⟩ := reads_paren.exists_findInSugar hq hParen
    obtain ⟨q', hq', hFirst⟩ := reads_paren.exists_of_findInSugar hFound
    -- the first parenthesis stands on the way to the end as well, so what it encloses ends there too
    have hRest := (reaches_desugar_iff.mpr (hq'.tail (.paren hFirst))).to_end (u.reaches_canonical p)
      hSignature.desugar_eq_none
    refine ⟨p, first, hp, hFound, ?_⟩
    rwa [canonical_of_end hRest hSignature.desugar_eq_none]

end FunctionPointers

/-- On every unit, also one with cyclic types. -/
theorem searches_agree (u : SourceUnit) (t : TypeId) :
    (∀ d, u.namedEnum t = some d ↔ u.typeKind? (u.canonical t) = some (.enum d)) ∧
    (∀ d, u.asTypedef t = some d ↔ u.FirstAlias u.SugarStep t d) ∧
    (u.asTypedef t = none ↔ ∀ t' d, ReflTransGen u.SugarStep t t' → u.typeKind? t' ≠ some (.typedef d)) ∧
    ∀ s, u.functionPointer t = some s ↔ ∃ p, u.pointee t = some p ∧ u.HasSignature (u.canonical p) s ∧
      ∃ q inner, ReflTransGen u.SugarStep p q ∧ TransGen u.SugarStep q (u.canonical p) ∧
        u.typeKind? q = some (.paren inner) := by
  refine ⟨fun d => ?_, fun d => asTypedef_eq_some_iff, reads_typedef.findInSugar_eq_none_iff,
    fun s => functionPointer_iff_canonical⟩
  exact reads_enum.findInSugar_iff_canonical fun t d hk => by simp [desugar, hk]

/-- `typedef b a; typedef a b;` with the types `a` (0) and `b` (1), and a pointer (4) to the elaboration of a
parenthesised function type. -/
def circleUnit : SourceUnit where
  lexemes := []
  decls := #[
    ⟨.typedef ⟨1⟩, .identifier "a", 0, .single 0, none⟩,
    ⟨.typedef ⟨0⟩, .identifier "b", 0, .single 0, none⟩]
  stmts := #[]
  types := #[
    ⟨.typedef ⟨0⟩, "a"⟩, ⟨.typedef ⟨1⟩, "b"⟩, ⟨.functionProto ⟨0⟩ [⟨1⟩] false, "a (b)"⟩, ⟨.paren ⟨2⟩, "a (b)"⟩,
    ⟨.pointer ⟨5⟩, "a (*)(b)"⟩, ⟨.elaborated ⟨3⟩, "a (b)"⟩]
  topLevel := []

example : circleUnit.asTypedef ⟨1⟩ = some ⟨1⟩ ∧ circleUnit.namedEnum ⟨1⟩ = none ∧
    circleUnit.functionPointer ⟨4⟩ = some ⟨⟨0⟩, [⟨1⟩]⟩ := by decide

end UnitGraph.SourceUnit
