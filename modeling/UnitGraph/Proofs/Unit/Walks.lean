import UnitGraph.Proofs.Chain
import UnitGraph.Proofs.Unit.InRange

/-!
# The bounded walks along types

Sugar and pointers lead from a type to at most one other type, and only a type of the table leads anywhere.
So no chain that ends is longer than the table, and the step limit cuts off none. Main statement: a walk
answers exactly what lies at the end of the chain of its steps, and nothing if there is no such end.
-/
namespace UnitGraph.SourceUnit

open Relation

/-- One step through sugar: from an alias to what its typedef names, from an elaboration or a parenthesis to
what it encloses. -/
inductive SugarStep (u : SourceUnit) : TypeId → TypeId → Prop
  | typedef {t t' : TypeId} {d : DeclId} : u.typeKind? t = some (.typedef d) →
      u.declKind? d = some (.typedef t') → SugarStep u t t'
  | elaborated {t t' : TypeId} : u.typeKind? t = some (.elaborated t') → SugarStep u t t'
  | paren {t t' : TypeId} : u.typeKind? t = some (.paren t') → SugarStep u t t'

/-- One step through sugar or through a pointer. -/
inductive WalkStep (u : SourceUnit) : TypeId → TypeId → Prop
  | sugar {t t' : TypeId} : u.SugarStep t t' → WalkStep u t t'
  | pointer {t t' : TypeId} : u.typeKind? t = some (.pointer t') → WalkStep u t t'

def IsSugar (u : SourceUnit) (t : TypeId) : Prop := ∃ t', u.SugarStep t t'

/-- The step of either kind from a type, if there is one. -/
def advance? (u : SourceUnit) (t : TypeId) : Option TypeId :=
  match u.typeKind? t with
  | some (.pointer t') => some t'
  | _ => u.desugar t

/-- What a search makes of the kind of a type. -/
def picked {β : Type} (u : SourceUnit) (pick : TypeKind → Option β) (t : TypeId) : Option β :=
  (u.typeKind? t).bind pick

variable {u : SourceUnit} {t t' : TypeId}

theorem desugar_eq_some_iff : u.desugar t = some t' ↔ u.SugarStep t t' := by
  constructor
  · intro h
    unfold desugar underlying? at h
    split at h
    · next d hk =>
        split at h
        · next hd =>
            cases h
            exact .typedef hk hd
        · cases h
    · next hk =>
        cases h
        exact .elaborated hk
    · next hk =>
        cases h
        exact .paren hk
    · cases h
  · intro h
    cases h with
    | typedef hk hd => simp [desugar, underlying?, hk, hd]
    | elaborated hk => simp [desugar, hk]
    | paren hk => simp [desugar, hk]

theorem desugar_eq_none_iff : u.desugar t = none ↔ ¬ u.IsSugar t := by
  simp only [IsSugar, ← desugar_eq_some_iff, Option.eq_none_iff_forall_ne_some, not_exists, ne_eq]

theorem desugar_of_pointer (h : u.typeKind? t = some (.pointer t')) : u.desugar t = none := by
  simp [desugar, h]

theorem desugar_of_record {d : DeclId} (h : u.typeKind? t = some (.record d)) : u.desugar t = none := by
  simp [desugar, h]

theorem advance?_eq_some_iff : u.advance? t = some t' ↔ u.WalkStep t t' := by
  constructor
  · intro h
    unfold advance? at h
    split at h
    · next hk =>
        cases h
        exact .pointer hk
    · exact .sugar (desugar_eq_some_iff.mp h)
  · intro h
    cases h with
    | pointer hk => simp [advance?, hk]
    | sugar hs =>
        have h := desugar_eq_some_iff.mpr hs
        unfold advance?
        split
        · next hk => cases h.symm.trans (desugar_of_pointer hk)
        · exact h

theorem advance?_of_desugar (h : u.desugar t = some t') : u.advance? t = some t' :=
  advance?_eq_some_iff.mpr (.sugar (desugar_eq_some_iff.mp h))

theorem InRange.walkStep_lt (h : u.InRange) (hStep : u.WalkStep t t') : t'.index < u.typeCount := by
  have hPart : ∀ k, u.typeKind? t = some k → t' ∈ k.parts → t'.index < u.typeCount := by
    intro k hk hMem
    obtain ⟨entry, hEntry, rfl⟩ := exists_mem_of_typeKind? hk
    exact h.typeParts entry hEntry t' hMem
  cases hStep with
  | pointer hk => exact hPart _ hk List.mem_cons_self
  | sugar hs =>
      cases hs with
      | elaborated hk => exact hPart _ hk List.mem_cons_self
      | paren hk => exact hPart _ hk List.mem_cons_self
      | typedef _ hd =>
          obtain ⟨decl, hDecl, hKind⟩ := Option.map_eq_some_iff.mp hd
          exact h.declTypes decl (mem_decls_of_decl? hDecl) t' (by simp [hKind, DeclKind.underlying?])

section Limit

/-- The types of the table. -/
def typeIds (u : SourceUnit) : List TypeId := (List.range u.typeCount).map TypeId.mk

theorem length_typeIds_le (u : SourceUnit) : u.typeIds.length ≤ u.stepLimit := by
  simp [typeIds, stepLimit]

theorem mem_typeIds_of_typeKind? {k : TypeKind} (h : u.typeKind? t = some k) : t ∈ u.typeIds := by
  obtain ⟨entry, hEntry, _⟩ := Option.map_eq_some_iff.mp h
  exact List.mem_map.mpr ⟨t.index, List.mem_range.mpr (Array.getElem?_eq_some_iff.mp hEntry).1, rfl⟩

theorem mem_typeIds_of_desugar (h : u.desugar t = some t') : t ∈ u.typeIds := by
  cases desugar_eq_some_iff.mp h with
  | typedef hk _ => exact mem_typeIds_of_typeKind? hk
  | elaborated hk => exact mem_typeIds_of_typeKind? hk
  | paren hk => exact mem_typeIds_of_typeKind? hk

theorem reaches_canonical (u : SourceUnit) (t : TypeId) : Chain.Reaches u.desugar t (u.canonical t) :=
  Chain.reaches_follow ..

theorem canonical_of_end (h : Chain.Reaches u.desugar t t') (he : u.desugar t' = none) :
    u.canonical t = t' :=
  Chain.follow_of_reaches (fun _ _ => mem_typeIds_of_desugar) u.length_typeIds_le h he

/-- Where the walk ends on a kind that is no sugar, sugar leads to a type of this kind, and conversely. -/
theorem typeKind?_canonical_iff {k : TypeKind} (hEnd : ∀ e, u.typeKind? e = some k → u.desugar e = none) :
    u.typeKind? (u.canonical t) = some k ↔ ∃ e, Chain.Reaches u.desugar t e ∧ u.typeKind? e = some k := by
  constructor
  · intro hk
    exact ⟨u.canonical t, u.reaches_canonical t, hk⟩
  · intro h
    obtain ⟨e, he, hk⟩ := h
    rwa [canonical_of_end he (hEnd e hk)]

theorem typeKind?_of_pointee (h : u.pointee t = some t') :
    u.typeKind? (u.canonical t) = some (.pointer t') := by
  unfold pointee at h
  split at h
  · next hk =>
      cases h
      exact hk
  · cases h

theorem pointee_eq_some_iff : u.pointee t = some t' ↔
    ∃ p, Chain.Reaches u.desugar t p ∧ u.typeKind? p = some (.pointer t') := by
  rw [← typeKind?_canonical_iff fun _ => desugar_of_pointer]
  constructor
  · exact typeKind?_of_pointee
  · intro hk
    rw [pointee, hk]

theorem recordDecl?_eq_some_iff {d : DeclId} : u.recordDecl? t = some d ↔
    ∃ r, Chain.Reaches u.desugar t r ∧ u.typeKind? r = some (.record d) := by
  rw [← typeKind?_canonical_iff fun _ => desugar_of_record]
  constructor
  · intro h
    unfold recordDecl? at h
    split at h
    · next hk =>
        cases h
        exact hk
    · cases h
  · intro hk
    rw [recordDecl?, hk]

/-- A search stops at the first hit, also where the chain does not end. -/
theorem findInSugar_iff_first {β : Type} {pick : TypeKind → Option β} {b : β} :
    u.findInSugar pick t = some b ↔ Chain.First u.SugarStep (u.picked pick) t b := by
  have hBound : u.typeIds.length < u.stepLimit := by simp [typeIds, stepLimit]
  exact Chain.findAlong_eq_some_iff (fun _ _ => desugar_eq_some_iff) (fun _ _ => mem_typeIds_of_desugar) hBound

theorem mem_typeIds_of_pointee (h : u.pointee t = some t') : t ∈ u.typeIds := by
  obtain ⟨p, hp, hk⟩ := pointee_eq_some_iff.mp h
  cases hp with
  | refl => exact mem_typeIds_of_typeKind? hk
  | head hs _ => exact mem_typeIds_of_desugar hs

theorem reaches_stripPointers (u : SourceUnit) (t : TypeId) :
    Chain.Reaches u.pointee t (u.stripPointers t) := Chain.reaches_follow ..

theorem stripPointers_of_end (h : Chain.Reaches u.pointee t t') (he : u.pointee t' = none) :
    u.stripPointers t = t' :=
  Chain.follow_of_reaches (fun _ _ => mem_typeIds_of_pointee) u.length_typeIds_le h he

end Limit

section Pointers

theorem reaches_advance_of_desugar (h : Chain.Reaches u.desugar t t') : Chain.Reaches u.advance? t t' := by
  induction h with
  | refl t => exact .refl t
  | head hs _ ih => exact .head (advance?_of_desugar hs) ih

theorem reaches_advance_of_pointee (h : Chain.Reaches u.pointee t t') : Chain.Reaches u.advance? t t' := by
  induction h with
  | refl t => exact .refl t
  | @head t p t' hp _ ih =>
      obtain ⟨q, hq, hk⟩ := pointee_eq_some_iff.mp hp
      have hStep : u.advance? q = some p := advance?_eq_some_iff.mpr (.pointer hk)
      exact (reaches_advance_of_desugar hq).trans (.head hStep ih)

/-- A walk through sugar and pointers goes pointer by pointer first: what is left is sugar. -/
theorem exists_last_pointee (h : Chain.Reaches u.advance? t t') (he : u.advance? t' = none) :
    ∃ last, Chain.Reaches u.pointee t last ∧ Chain.Reaches u.desugar last t' := by
  induction h with
  | refl t => exact ⟨t, .refl t, .refl t⟩
  | @head t s t' hts _ ih =>
      obtain ⟨last, hPointers, hSugar⟩ := ih he
      cases advance?_eq_some_iff.mp hts with
      | pointer hk => exact ⟨last, .head (pointee_eq_some_iff.mpr ⟨t, .refl t, hk⟩) hPointers, hSugar⟩
      | sugar hs =>
          have hs := desugar_eq_some_iff.mpr hs
          cases hPointers with
          | refl => exact ⟨t, .refl t, .head hs hSugar⟩
          | head hp hRest =>
              -- the sugar before a pointer does not change what it points to
              obtain ⟨q, hq, hk⟩ := pointee_eq_some_iff.mp hp
              exact ⟨last, .head (pointee_eq_some_iff.mpr ⟨q, .head hs hq, hk⟩) hRest, hSugar⟩

/-- What is left when all pointers have been followed denotes the end of the whole walk. -/
theorem canonical_stripPointers_of_end (h : Chain.Reaches u.advance? t t') (he : u.advance? t' = none) :
    u.canonical (u.stripPointers t) = t' := by
  obtain ⟨last, hPointers, hSugar⟩ := exists_last_pointee h he
  have hNoSugar : u.desugar t' = none := by
    cases hs : u.desugar t' with
    | none => rfl
    | some s => cases he.symm.trans (advance?_of_desugar hs)
  have hLast := canonical_of_end hSugar hNoSugar
  have hNoPointer : u.pointee last = none := by
    cases hp : u.pointee last with
    | none => rfl
    | some p =>
        have hk := typeKind?_of_pointee hp
        rw [hLast] at hk
        cases he.symm.trans (advance?_eq_some_iff.mpr (.pointer hk))
  rw [stripPointers_of_end hPointers hNoPointer, hLast]

theorem advance?_of_record {d : DeclId} (h : u.typeKind? t = some (.record d)) : u.advance? t = none := by
  simp [advance?, h, desugar]

theorem referencedRecord_eq_some_iff {d : DeclId} : u.referencedRecord t = some d ↔
    ∃ t' r, Chain.Reaches u.advance? t t' ∧ u.typeKind? t' = some (.record r) ∧
      u.recordDefinition r = d := by
  rw [referencedRecord, Option.map_eq_some_iff]
  constructor
  · intro h
    obtain ⟨r, hr, hd⟩ := h
    obtain ⟨t', ht', hk⟩ := recordDecl?_eq_some_iff.mp hr
    have hStripped := reaches_advance_of_pointee (u.reaches_stripPointers t)
    exact ⟨t', r, hStripped.trans (reaches_advance_of_desugar ht'), hk, hd⟩
  · intro h
    obtain ⟨t', r, ht', hk, hd⟩ := h
    refine ⟨r, ?_, hd⟩
    rw [recordDecl?, canonical_stripPointers_of_end ht' (advance?_of_record hk), hk]

end Pointers

theorem reaches_desugar_iff : Chain.Reaches u.desugar t t' ↔ ReflTransGen u.SugarStep t t' :=
  Chain.reaches_iff fun _ _ => desugar_eq_some_iff

theorem reaches_advance_iff : Chain.Reaches u.advance? t t' ↔ ReflTransGen u.WalkStep t t' :=
  Chain.reaches_iff fun _ _ => advance?_eq_some_iff

/-- A record is named by a typedef if some alias of the unit denotes a record of the same definition. -/
theorem isTypedefTarget_iff {d : DeclId} : u.isTypedefTarget d = true ↔
    ∃ a t t' r, u.declKind? a = some (.typedef t) ∧ ReflTransGen u.SugarStep t t' ∧
      u.typeKind? t' = some (.record r) ∧ u.recordDefinition r = u.recordDefinition d := by
  have hDenotes : ∀ t, (u.recordDecl? t).any (u.recordDefinition · = u.recordDefinition d) = true ↔
      ∃ t' r, ReflTransGen u.SugarStep t t' ∧ u.typeKind? t' = some (.record r) ∧
        u.recordDefinition r = u.recordDefinition d := by
    intro t
    simp only [Option.any_eq_true, recordDecl?_eq_some_iff, reaches_desugar_iff, decide_eq_true_eq]
    constructor
    · intro h
      obtain ⟨r, ⟨t', ht', hk⟩, hr⟩ := h
      exact ⟨t', r, ht', hk, hr⟩
    · intro h
      obtain ⟨t', r, ht', hk, hr⟩ := h
      exact ⟨r, ⟨t', ht', hk⟩, hr⟩
  rw [isTypedefTarget, Array.any_eq_true]
  constructor
  · intro h
    obtain ⟨i, hi, h⟩ := h
    split at h
    · next t hk =>
        obtain ⟨t', r, h⟩ := (hDenotes t).mp h
        exact ⟨⟨i⟩, t, t', r, by simp [declKind?, decl?, hi, hk], h⟩
    · cases h
  · intro h
    obtain ⟨a, t, t', r, hAlias, h⟩ := h
    obtain ⟨decl, hDecl, hk⟩ := Option.map_eq_some_iff.mp hAlias
    obtain ⟨hi, rfl⟩ := Array.getElem?_eq_some_iff.mp hDecl
    refine ⟨a.index, hi, ?_⟩
    rw [hk]
    exact (hDenotes t).mpr ⟨t', r, h⟩

/-- On every unit, also one with cyclic types: what the bounded walks find is what finite chains lead to. A
chain that comes back to itself leads to nothing, and a chain that ends is followed to its end. -/
theorem walks_complete (u : SourceUnit) (t : TypeId) :
    (∀ p, u.pointee t = some p ↔
      ∃ t', ReflTransGen u.SugarStep t t' ∧ u.typeKind? t' = some (.pointer p)) ∧
    (∀ r, u.recordDecl? t = some r ↔
      ∃ t', ReflTransGen u.SugarStep t t' ∧ u.typeKind? t' = some (.record r)) ∧
    (∀ d, u.referencedRecord t = some d ↔
      ∃ t' r, ReflTransGen u.WalkStep t t' ∧ u.typeKind? t' = some (.record r) ∧
        u.recordDefinition r = d) ∧
    (∀ t', ReflTransGen u.WalkStep t t' → TransGen u.WalkStep t' t' → u.referencedRecord t = none) ∧
    (Chain.Finite u.SugarStep t →
      ReflTransGen u.SugarStep t (u.canonical t) ∧ ¬ u.IsSugar (u.canonical t) ∧
        u.canonical (u.canonical t) = u.canonical t) ∧
    (Chain.Finite u.WalkStep t →
      ReflTransGen u.WalkStep t (u.canonical (u.stripPointers t)) ∧
        ∀ t', ¬ u.WalkStep (u.canonical (u.stripPointers t)) t') := by
  simp only [← reaches_desugar_iff, ← reaches_advance_iff]
  refine ⟨fun _ => pointee_eq_some_iff, fun _ => recordDecl?_eq_some_iff,
    fun _ => referencedRecord_eq_some_iff, ?_, ?_, ?_⟩
  · intro t' ht' hCycle
    refine Option.eq_none_iff_forall_ne_some.mpr fun d hd => ?_
    obtain ⟨e, r, he, hk, _⟩ := referencedRecord_eq_some_iff.mp hd
    have hFinite : Chain.Finite u.WalkStep t :=
      Chain.finite_of_reaches_end (fun _ _ => advance?_eq_some_iff) he (advance?_of_record hk)
    exact Chain.not_finite_of_cycle (reaches_advance_iff.mp ht') hCycle hFinite
  · intro hFinite
    obtain ⟨e, he, hNone⟩ := hFinite.exists_end fun _ _ => desugar_eq_some_iff
    rw [canonical_of_end he hNone]
    exact ⟨he, desugar_eq_none_iff.mp hNone, canonical_of_end (.refl e) hNone⟩
  · intro hFinite
    obtain ⟨e, he, hNone⟩ := hFinite.exists_end fun _ _ => advance?_eq_some_iff
    rw [canonical_stripPointers_of_end he hNone]
    refine ⟨he, fun t' hStep => ?_⟩
    cases hNone.symm.trans (advance?_eq_some_iff.mpr hStep)

end UnitGraph.SourceUnit
