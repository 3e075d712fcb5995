import UnitGraph.Proofs.Unit.Walks

/-!
# The alias that a declared type refers to

Between a type and what it finally denotes there may be aliases before the first pointer, between two
pointers and behind the last one. Main statement: the search finds the first alias before the first pointer,
or else the first one behind the last pointer. Where no alias stands between two pointers this is the first
alias of the whole chain; an alias that names a pointer type, used behind a pointer, is passed over.
-/
namespace UnitGraph.SourceUnit

open Relation

/-- The declaration of a type that is an alias. -/
def aliasDecl? (u : SourceUnit) (t : TypeId) : Option DeclId :=
  (u.typeKind? t).bind fun
    | .typedef d => some d
    | _ => none

/-- The first alias on the chain of some steps from a type. -/
def FirstAlias (u : SourceUnit) (r : TypeId → TypeId → Prop) (t : TypeId) (d : DeclId) : Prop :=
  Chain.First r u.aliasDecl? t d

/-- From a type to what it points to, through the sugar before the pointer. -/
def PointerStep (u : SourceUnit) (t p : TypeId) : Prop :=
  ∃ q, ReflTransGen u.SugarStep t q ∧ u.typeKind? q = some (.pointer p)

variable {u : SourceUnit} {t t' p last : TypeId} {d : DeclId}

theorem aliasDecl?_of_pointer (h : u.typeKind? t = some (.pointer t')) : u.aliasDecl? t = none := by
  simp [aliasDecl?, h]

theorem pointee_iff : u.pointee t = some p ↔ u.PointerStep t p := by
  simp only [pointee_eq_some_iff, reaches_desugar_iff, PointerStep]

theorem asTypedef_eq_some_iff : u.asTypedef t = some d ↔ u.FirstAlias u.SugarStep t d := findInSugar_iff_first

theorem asTypedef_eq_none_iff : u.asTypedef t = none ↔ ∀ d, ¬ u.FirstAlias u.SugarStep t d := by
  simp only [← asTypedef_eq_some_iff, Option.eq_none_iff_forall_ne_some, ne_eq]

section Search

theorem FirstAlias.walk (h : u.FirstAlias u.SugarStep t d) : u.FirstAlias u.WalkStep t d :=
  Chain.First.mono (fun _ _ => .sugar) h

/-- No alias stands before the pointer, so the first alias is one of what it points to. -/
theorem FirstAlias.of_pointerStep (hNone : ∀ a, ¬ u.FirstAlias u.SugarStep t a) (hStep : u.PointerStep t p)
    (h : u.FirstAlias u.WalkStep p d) : u.FirstAlias u.WalkStep t d := by
  obtain ⟨q, hSugar, hPointer⟩ := hStep
  induction hSugar using ReflTransGen.head_induction_on with
  | refl => exact .there (aliasDecl?_of_pointer hPointer) (.pointer hPointer) h
  | @head t s hts _ ih =>
      cases hAlias : u.aliasDecl? t with
      | some a => exact absurd (.here hAlias) (hNone a)
      | none => exact .there hAlias (.sugar hts) (ih fun a ha => hNone a (.there hAlias hts ha))

/-- The first alias stands before the first pointer, or behind it if there is none before. -/
theorem FirstAlias.split (h : u.FirstAlias u.WalkStep t d) :
    u.FirstAlias u.SugarStep t d ∨ (∀ a, ¬ u.FirstAlias u.SugarStep t a) ∧
      ∃ p, u.PointerStep t p ∧ u.FirstAlias u.WalkStep p d := by
  induction h with
  | here hAlias => exact Or.inl (.here hAlias)
  | @there t s d hNone hStep hRest ih =>
      cases hStep with
      | sugar hts =>
          rcases ih with hBefore | ⟨hNoneBefore, p, ⟨q, hq, hPointer⟩, hBehind⟩
          · exact Or.inl (.there hNone hts hBefore)
          · refine Or.inr ⟨fun a ha => ?_, p, ⟨q, .head hts hq, hPointer⟩, hBehind⟩
            cases ha with
            | here hAlias => cases hNone.symm.trans hAlias
            | there _ hts' ha =>
                cases (desugar_eq_some_iff.mpr hts).symm.trans (desugar_eq_some_iff.mpr hts')
                exact hNoneBefore a ha
      | pointer hPointer =>
          refine Or.inr ⟨fun a ha => ?_, s, ⟨t, .refl, hPointer⟩, hRest⟩
          cases ha with
          | here hAlias => cases hNone.symm.trans hAlias
          | there _ hts _ =>
              cases (desugar_of_pointer hPointer).symm.trans (desugar_eq_some_iff.mpr hts)

theorem firstAlias_iff_of_no_pointer (h : u.pointee t = none) :
    u.FirstAlias u.WalkStep t d ↔ u.FirstAlias u.SugarStep t d := by
  constructor
  · intro hFirst
    rcases hFirst.split with hBefore | ⟨_, p, hStep, _⟩
    · exact hBefore
    · cases h.symm.trans (pointee_iff.mpr hStep)
  · exact FirstAlias.walk

theorem firstAlias_iff_of_pointee (h : u.pointee t = some p) :
    u.FirstAlias u.WalkStep t d ↔ u.FirstAlias u.SugarStep t d ∨
      (∀ a, ¬ u.FirstAlias u.SugarStep t a) ∧ u.FirstAlias u.WalkStep p d := by
  constructor
  · intro hFirst
    rcases hFirst.split with hBefore | ⟨hNone, p', hStep, hBehind⟩
    · exact Or.inl hBefore
    · cases h.symm.trans (pointee_iff.mpr hStep)
      exact Or.inr ⟨hNone, hBehind⟩
  · intro hFirst
    rcases hFirst with hBefore | ⟨hNone, hBehind⟩
    · exact hBefore.walk
    · exact hBehind.of_pointerStep hNone (pointee_iff.mp h)

/-- Where no alias stands before a pointer, only those behind the last pointer count. -/
theorem firstAlias_iff_last (hReach : Chain.Reaches u.pointee t last) (hLast : u.pointee last = none)
    (hNone : ∀ s q, Chain.Reaches u.pointee t s → u.pointee s = some q → ∀ a, ¬ u.FirstAlias u.SugarStep s a) :
    u.FirstAlias u.WalkStep t d ↔ u.FirstAlias u.SugarStep last d := by
  induction hReach with
  | refl t => exact firstAlias_iff_of_no_pointer hLast
  | @head t p last hp _ ih =>
      have hNoneHere := hNone t p (.refl t) hp
      rw [firstAlias_iff_of_pointee hp, or_iff_right (hNoneHere d), and_iff_right hNoneHere]
      exact ih hLast fun s q hs => hNone s q (.head hp hs)

theorem exists_stripped (hFinite : Chain.Finite u.WalkStep t) :
    Chain.Reaches u.pointee t (u.stripPointers t) ∧ u.pointee (u.stripPointers t) = none := by
  refine ⟨u.reaches_stripPointers t, ?_⟩
  obtain ⟨e, he, hEnd⟩ := hFinite.exists_end fun _ _ => advance?_eq_some_iff
  have hDenotes := canonical_stripPointers_of_end he hEnd
  cases hp : u.pointee (u.stripPointers t) with
  | none => rfl
  | some p =>
      have hPointer := typeKind?_of_pointee hp
      rw [hDenotes] at hPointer
      cases hEnd.symm.trans (advance?_eq_some_iff.mpr (.pointer hPointer))

theorem referencedAlias_eq_some_iff : u.referencedAlias t = some d ↔
    u.FirstAlias u.SugarStep t d ∨
      (∀ a, ¬ u.FirstAlias u.SugarStep t a) ∧ u.FirstAlias u.SugarStep (u.stripPointers t) d := by
  rw [referencedAlias, Option.or_eq_some_iff, asTypedef_eq_none_iff, asTypedef_eq_some_iff,
    asTypedef_eq_some_iff]

end Search

section Between

/-- If an alias stands between two pointers and none before the first of them, then some alias between two
pointers is the first of all. -/
theorem exists_first_between {s : TypeId} {a : DeclId} (hReach : Chain.Reaches u.pointee p s)
    (hStep : u.pointee t = some p) (hNext : (u.pointee s).isSome) (hAlias : u.FirstAlias u.SugarStep s a)
    (hNone : ∀ a, ¬ u.FirstAlias u.SugarStep t a) :
    ∃ s a, Chain.Reaches u.pointee p s ∧ (u.pointee s).isSome ∧ u.FirstAlias u.SugarStep s a ∧
      u.FirstAlias u.WalkStep t a := by
  induction hReach generalizing t with
  | refl s =>
      exact ⟨s, a, .refl s, hNext, hAlias, hAlias.walk.of_pointerStep hNone (pointee_iff.mp hStep)⟩
  | @head p q s hpq _ ih =>
      by_cases hHere : ∃ b, u.FirstAlias u.SugarStep p b
      · obtain ⟨b, hb⟩ := hHere
        exact ⟨p, b, .refl p, hpq ▸ rfl, hb, hb.walk.of_pointerStep hNone (pointee_iff.mp hStep)⟩
      · obtain ⟨s', a', hReach', hNext', hAlias', hFirst⟩ := ih hpq hNext hAlias (not_exists.mp hHere)
        exact ⟨s', a', .head hpq hReach', hNext', hAlias',
          hFirst.of_pointerStep hNone (pointee_iff.mp hStep)⟩

theorem FirstAlias.exists_type (h : u.FirstAlias u.SugarStep t d) :
    ∃ s, Chain.Reaches u.desugar t s ∧ u.typeKind? s = some (.typedef d) := by
  induction h with
  | @here t d hAlias =>
      obtain ⟨k, hk, hAlias⟩ := Option.bind_eq_some_iff.mp hAlias
      cases k with
      | typedef a =>
          cases hAlias
          exact ⟨t, .refl t, hk⟩
      | _ => cases hAlias
  | there _ hStep _ ih =>
      obtain ⟨s, hs, hk⟩ := ih
      exact ⟨s, .head (desugar_eq_some_iff.mpr hStep) hs, hk⟩

/-- On a chain that ends, an alias before a pointer does not come again behind it: what it names would lead
back to itself. -/
theorem not_finite_of_same_alias {s q : TypeId} (hFrom : Chain.Reaches u.pointee s t)
    (hBefore : u.FirstAlias u.SugarStep t d) (hStep : u.pointee t = some p)
    (hReach : Chain.Reaches u.pointee p q) (hBehind : u.FirstAlias u.SugarStep q d) :
    ¬ Chain.Finite u.WalkStep s := by
  obtain ⟨first, hFirst, hFirstKind⟩ := hBefore.exists_type
  obtain ⟨second, hSecond, hSecondKind⟩ := hBehind.exists_type
  obtain ⟨pointer, hPointer, hPointerKind⟩ := pointee_eq_some_iff.mp hStep
  have hRest := hFirst.to_end hPointer (desugar_of_pointer hPointerKind)
  cases hRest with
  | refl => cases hFirstKind.symm.trans hPointerKind
  | @head _ named _ hNamed hRest =>
      have hAgain : u.desugar second = some named := by simpa [desugar, hFirstKind, hSecondKind] using hNamed
      have hToPointer : Chain.Reaches u.advance? named pointer := reaches_advance_of_desugar hRest
      have hToSecond : Chain.Reaches u.advance? named second :=
        hToPointer.trans (.head (advance?_eq_some_iff.mpr (.pointer hPointerKind))
          ((reaches_advance_of_pointee hReach).trans (reaches_advance_of_desugar hSecond)))
      have hToNamed : Chain.Reaches u.advance? s named :=
        ((reaches_advance_of_pointee hFrom).trans (reaches_advance_of_desugar hFirst)).trans
          (.head (advance?_of_desugar hNamed) (.refl named))
      refine Chain.not_finite_of_cycle (reaches_advance_iff.mp hToNamed) ?_
      exact TransGen.tail' (reaches_advance_iff.mp hToSecond) (.sugar (desugar_eq_some_iff.mp hAgain))

/-- A first alias between two pointers is not the one behind the last of them. -/
theorem not_behind_of_between {s : TypeId} (hFinite : Chain.Finite u.WalkStep t)
    (hReach : Chain.Reaches u.pointee t s) (hNext : (u.pointee s).isSome)
    (hAlias : u.FirstAlias u.SugarStep s d) : ¬ u.FirstAlias u.SugarStep (u.stripPointers t) d := by
  intro hBehind
  obtain ⟨hLast, hEnd⟩ := exists_stripped hFinite
  obtain ⟨q, hq⟩ := Option.isSome_iff_exists.mp hNext
  have hRest : Chain.Reaches u.pointee s (u.stripPointers t) := hReach.to_end hLast hEnd
  cases hRest with
  | refl => cases hEnd.symm.trans hq
  | head hq' hRest => exact not_finite_of_same_alias hReach hAlias hq' hRest hBehind hFinite

end Between

theorem reaches_pointee_iff : Chain.Reaches u.pointee t t' ↔ ReflTransGen u.PointerStep t t' :=
  Chain.reaches_iff fun _ _ => pointee_iff

/-- Which alias a type refers to whose chain of sugar and pointers ends: the first before all pointers, or
else the first behind all pointers. This is the first alias of the whole chain just if there is one before
all pointers or none between two of them. -/
theorem referencedAlias_exact (hFinite : Chain.Finite u.WalkStep t) :
    (∀ d, u.referencedAlias t = some d ↔ u.FirstAlias u.SugarStep t d ∨
      (∀ a, ¬ u.FirstAlias u.SugarStep t a) ∧
        ∃ last, ReflTransGen u.PointerStep t last ∧ (∀ p, ¬ u.PointerStep last p) ∧
          u.FirstAlias u.SugarStep last d) ∧
    ((∀ d, u.referencedAlias t = some d ↔ u.FirstAlias u.WalkStep t d) ↔
      (∃ a, u.FirstAlias u.SugarStep t a) ∨
        ∀ s p a, TransGen u.PointerStep t s → u.PointerStep s p → ¬ u.FirstAlias u.SugarStep s a) := by
  obtain ⟨hLast, hEnd⟩ := exists_stripped hFinite
  refine ⟨fun d => ?_, fun hAgree => ?_, fun hWhen d => ?_⟩
  · rw [referencedAlias_eq_some_iff]
    refine or_congr_right (and_congr_right fun _ => ⟨fun h => ?_, fun h => ?_⟩)
    · refine ⟨u.stripPointers t, reaches_pointee_iff.mp hLast, fun p hp => ?_, h⟩
      cases hEnd.symm.trans (pointee_iff.mpr hp)
    · obtain ⟨last, hReach, hNoStep, hAlias⟩ := h
      have hNoPointer : u.pointee last = none :=
        Option.eq_none_iff_forall_ne_some.mpr fun p hp => hNoStep p (pointee_iff.mp hp)
      rwa [stripPointers_of_end (reaches_pointee_iff.mpr hReach) hNoPointer]
  · by_cases hBefore : ∃ a, u.FirstAlias u.SugarStep t a
    · exact Or.inl hBefore
    · refine Or.inr fun s p a hReach hStep hAlias => ?_
      obtain ⟨q, hq, hReach⟩ := TransGen.head'_iff.mp hReach
      obtain ⟨s, a, hReach, hNext, hBetween, hFirst⟩ := exists_first_between (reaches_pointee_iff.mpr hReach)
        (pointee_iff.mpr hq) (pointee_iff.mpr hStep ▸ rfl) hAlias (not_exists.mp hBefore)
      have hFound := referencedAlias_eq_some_iff.mp ((hAgree a).mpr hFirst)
      rw [or_iff_right (not_exists.mp hBefore a)] at hFound
      exact not_behind_of_between hFinite (.head (pointee_iff.mpr hq) hReach) hNext hBetween hFound.2
  · rw [referencedAlias_eq_some_iff]
    cases hp : u.pointee t with
    | none =>
        rw [firstAlias_iff_of_no_pointer hp, stripPointers_of_end (.refl t) hp]
        exact or_iff_left_of_imp And.right
    | some p =>
        rw [firstAlias_iff_of_pointee hp]
        refine or_congr_right (and_congr_right fun hNone => ?_)
        have hBetween := hWhen.resolve_left fun ⟨a, ha⟩ => hNone a ha
        have hRest : Chain.Reaches u.pointee p (u.stripPointers t) :=
          (Chain.Reaches.head hp (.refl p)).to_end hLast hEnd
        refine (firstAlias_iff_last hRest hEnd fun s q hs hq a => ?_).symm
        exact hBetween s q a (TransGen.head' (pointee_iff.mp hp) (reaches_pointee_iff.mp hs))
          (pointee_iff.mp hq)

/-- `typedef int word; typedef word *line; typedef int *row;` with the types `line *` (4) and `row *` (7). -/
def lineUnit : SourceUnit where
  lexemes := []
  decls := #[
    ⟨.typedef ⟨0⟩, .identifier "word", 0, .single 0, none⟩,
    ⟨.typedef ⟨2⟩, .identifier "line", 0, .single 0, none⟩,
    ⟨.typedef ⟨5⟩, .identifier "row", 0, .single 0, none⟩]
  stmts := #[]
  types := #[
    ⟨.builtin, "int"⟩, ⟨.typedef ⟨0⟩, "word"⟩, ⟨.pointer ⟨1⟩, "word *"⟩, ⟨.typedef ⟨1⟩, "line"⟩,
    ⟨.pointer ⟨3⟩, "line *"⟩, ⟨.pointer ⟨0⟩, "int *"⟩, ⟨.typedef ⟨2⟩, "row"⟩, ⟨.pointer ⟨6⟩, "row *"⟩]
  topLevel := []

theorem lineUnit_finite : Chain.Finite lineUnit.WalkStep ⟨4⟩ ∧ Chain.Finite lineUnit.WalkStep ⟨7⟩ := by
  have hLine : Chain.Reaches lineUnit.advance? ⟨4⟩ ⟨0⟩ :=
    .head rfl (.head rfl (.head rfl (.head rfl (.refl _))))
  have hRow : Chain.Reaches lineUnit.advance? ⟨7⟩ ⟨0⟩ := .head rfl (.head rfl (.head rfl (.refl _)))
  exact ⟨Chain.finite_of_reaches_end (fun _ _ => advance?_eq_some_iff) hLine rfl,
    Chain.finite_of_reaches_end (fun _ _ => advance?_eq_some_iff) hRow rfl⟩

/-- The first alias that `line *` is spelled with is `line`, but the search finds `word`, which is not in the
spelling at all; that of `row *` is `row`, but the search finds none. -/
theorem referencedAlias_not_outermost :
    (Chain.Finite lineUnit.WalkStep ⟨4⟩ ∧ lineUnit.FirstAlias lineUnit.WalkStep ⟨4⟩ ⟨1⟩ ∧
      lineUnit.referencedAlias ⟨4⟩ = some ⟨0⟩) ∧
    (Chain.Finite lineUnit.WalkStep ⟨7⟩ ∧ lineUnit.FirstAlias lineUnit.WalkStep ⟨7⟩ ⟨2⟩ ∧
      lineUnit.referencedAlias ⟨7⟩ = none) := by
  refine ⟨⟨lineUnit_finite.1, ?_, by decide⟩, lineUnit_finite.2, ?_, by decide⟩
  · exact .there rfl (.pointer rfl) (.here rfl)
  · exact .there rfl (.pointer rfl) (.here rfl)

theorem referencedAlias_exact_line : Chain.Finite lineUnit.WalkStep ⟨4⟩ ∧
    lineUnit.referencedAlias ⟨4⟩ = some ⟨0⟩ ∧
    ∃ last, ReflTransGen lineUnit.PointerStep ⟨4⟩ last ∧ (∀ p, ¬ lineUnit.PointerStep last p) ∧
      lineUnit.FirstAlias lineUnit.SugarStep last ⟨0⟩ := by
  have hFound : lineUnit.referencedAlias ⟨4⟩ = some ⟨0⟩ := by decide
  refine ⟨lineUnit_finite.1, hFound, ?_⟩
  rcases ((referencedAlias_exact lineUnit_finite.1).1 ⟨0⟩).mp hFound with hBefore | ⟨_, hBehind⟩
  · cases (show lineUnit.asTypedef ⟨4⟩ = none by decide).symm.trans (asTypedef_eq_some_iff.mpr hBefore)
  · exact hBehind

end UnitGraph.SourceUnit
