import UnitGraph.Proofs.Unit.Extension

/-!
# Pointers to pointers

Pointers to a type, each to the one before, are added at the end of the table. Main statement: looking through
them is looking at the type itself. The outermost refers to the same record and leads to the same type behind all
pointers, its spelling has one star more for each of them, and what the types of the table denote stays as it is.
-/
namespace UnitGraph.SourceUnit

open Relation

/-- So many pointers to a type, each to the one before: the unit with them, and the outermost. -/
def addPointers (u : SourceUnit) (t : TypeId) : Nat → SourceUnit × TypeId
  | 0 => (u, t)
  | n + 1 =>
      let (v, p) := u.addPointers t n
      (v.addPointer p, ⟨v.typeCount⟩)

def stars (n : Nat) : String := String.ofList (List.replicate n '*')

variable {u v : SourceUnit} {t p : TypeId} {s : String}

theorem extends_addPointer (u : SourceUnit) (t : TypeId) : (u.addPointer t).Extends u := by
  refine ⟨rfl, fun t' entry ht => ?_⟩
  obtain ⟨hlt, -⟩ := Array.getElem?_eq_some_iff.mp ht
  rw [addPointer, addType, type?, Array.getElem?_push, if_neg (Nat.ne_of_lt hlt)]
  exact ht

theorem type?_addPointer (u : SourceUnit) (t : TypeId) : (u.addPointer t).type? ⟨u.typeCount⟩ =
    some ⟨.pointer t, pointerSpelling (u.spellingOf t)⟩ := Array.getElem?_push_size

theorem typeKind?_addPointer (u : SourceUnit) (t : TypeId) :
    (u.addPointer t).typeKind? ⟨u.typeCount⟩ = some (.pointer t) := by
  rw [typeKind?, type?_addPointer, Option.map_some]

section Spelling

theorem spelling_addPointer (hs : (u.type? t).map (·.spelling) = some s) :
    ((u.addPointer t).type? ⟨u.typeCount⟩).map (·.spelling) = some (pointerSpelling s) := by
  rw [type?_addPointer, Option.map_some, spellingOf, hs, Option.getD_some]

theorem append_stars_succ (s : String) (n : Nat) : s ++ stars n ++ "*" = s ++ stars (n + 1) := by
  rw [← String.toList_inj]
  simp [stars, List.replicate_succ']

theorem getLast?_append_stars (s : String) (n : Nat) : (s ++ stars (n + 1)).toList.getLast? = some '*' := by
  simp [stars, List.replicate_succ']

theorem pointerSpelling_append_stars (s : String) (n : Nat) :
    pointerSpelling (s ++ stars (n + 1)) = s ++ stars (n + 2) := by
  rw [pointerSpelling, if_pos (getLast?_append_stars s n), append_stars_succ]

theorem spelling_addPointers (hs : (u.type? t).map (·.spelling) = some s) (n : Nat) :
    ((u.addPointers t (n + 1)).1.type? (u.addPointers t (n + 1)).2).map (·.spelling) =
      some (if s.toList.getLast? = some '*' then s ++ stars (n + 1) else s ++ " " ++ stars (n + 1)) := by
  induction n with
  | zero =>
      refine (spelling_addPointer hs).trans (congrArg some ?_)
      rw [pointerSpelling, String.append_assoc]
      rfl
  | succ n ih =>
      refine (spelling_addPointer ih).trans (congrArg some ?_)
      split
      · exact pointerSpelling_append_stars s n
      · exact pointerSpelling_append_stars (s ++ " ") n

end Spelling

section Transparency

theorem pointee_of_pointer (hk : u.typeKind? p = some (.pointer t)) : u.pointee p = some t :=
  pointee_eq_some_iff.mpr ⟨p, .refl p, hk⟩

/-- Whatever a pointer leads to, other than itself, is what it points to or lies beyond. -/
theorem reaches_of_pointer {e : TypeId} (hk : u.typeKind? p = some (.pointer t))
    (hReach : Chain.Reaches u.advance? p e) (hNe : e ≠ p) : Chain.Reaches u.advance? t e := by
  cases hReach with
  | refl => exact absurd rfl hNe
  | head hStep hRest =>
      cases hStep.symm.trans (advance?_eq_some_iff.mpr (.pointer hk))
      exact hRest

theorem referencedRecord_of_pointer (hk : u.typeKind? p = some (.pointer t)) :
    u.referencedRecord p = u.referencedRecord t := by
  ext d
  rw [referencedRecord_eq_some_iff, referencedRecord_eq_some_iff]
  constructor
  · rintro ⟨e, r, hReach, hRecord, hd⟩
    refine ⟨e, r, reaches_of_pointer hk hReach ?_, hRecord, hd⟩
    rintro rfl
    cases hk.symm.trans hRecord
  · rintro ⟨e, r, hReach, hRecord, hd⟩
    exact ⟨e, r, .head (advance?_eq_some_iff.mpr (.pointer hk)) hReach, hRecord, hd⟩

theorem grounded_of_pointer (hk : u.typeKind? p = some (.pointer t)) (ht : u.Grounded t) : u.Grounded p := by
  intro e hReach
  by_cases he : e = p
  · subst he
    obtain ⟨entry, hEntry, -⟩ := Option.map_eq_some_iff.mp hk
    exact (Array.getElem?_eq_some_iff.mp hEntry).1
  · exact ht e (reaches_advance_iff.mp (reaches_of_pointer hk (reaches_advance_iff.mpr hReach) he))

/-- Looking through the pointers of one unit at a type of another. -/
structure SeenThrough (v : SourceUnit) (p : TypeId) (u : SourceUnit) (t : TypeId) : Prop where
  grounded : v.Grounded p
  record : v.referencedRecord p = u.referencedRecord t
  last : ∀ e, Chain.Reaches u.pointee t e → u.pointee e = none →
    Chain.Reaches v.pointee p e ∧ v.pointee e = none

theorem SeenThrough.refl (ht : u.Grounded t) : SeenThrough u t u t :=
  ⟨ht, rfl, fun _ hReach hLast => ⟨hReach, hLast⟩⟩

/-- One pointer more does not change what is seen. -/
theorem SeenThrough.addPointer (h : SeenThrough v p u t) :
    SeenThrough (v.addPointer p) ⟨v.typeCount⟩ u t where
  grounded := grounded_of_pointer (v.typeKind?_addPointer p) ((v.extends_addPointer p).grounded h.grounded)
  record := by
    rw [referencedRecord_of_pointer (v.typeKind?_addPointer p),
      (v.extends_addPointer p).referencedRecord_eq h.grounded, h.record]
  last := by
    intro e hReach hLast
    obtain ⟨hReach, hLast⟩ := h.last e hReach hLast
    have hGrounded : v.Grounded e := h.grounded.of_reaches (reaches_advance_of_pointee hReach)
    refine ⟨.head (pointee_of_pointer (v.typeKind?_addPointer p)) ?_, ?_⟩
    · exact ((v.extends_addPointer p).reaches_pointee_iff h.grounded).mpr hReach
    · rw [(v.extends_addPointer p).pointee_eq hGrounded, hLast]

theorem extends_addPointers (u : SourceUnit) (t : TypeId) (n : Nat) : (u.addPointers t n).1.Extends u := by
  induction n with
  | zero => exact .refl u
  | succ n ih => exact (extends_addPointer _ _).trans ih

theorem seenThrough_addPointers (ht : u.Grounded t) (n : Nat) :
    SeenThrough (u.addPointers t n).1 (u.addPointers t n).2 u t := by
  induction n with
  | zero => exact .refl ht
  | succ n ih => exact ih.addPointer

end Transparency

/-- On every unit, also one with cyclic types, and for every type from which sugar and pointers do not lead out of
the table. -/
theorem addPointers_transparent {n : Nat} (hn : 1 ≤ n) (hs : (u.type? t).map (·.spelling) = some s)
    (hv : u.addPointers t n = (v, p)) :
    (v.type? p).map (·.spelling) =
      some (if s.toList.getLast? = some '*' then s ++ stars n else s ++ " " ++ stars n) ∧
    (u.Grounded t → v.referencedRecord p = u.referencedRecord t) ∧
    (u.Grounded t → Chain.Finite u.WalkStep t → v.stripPointers p = u.stripPointers t) ∧
    ∀ t', u.Grounded t' → v.recordDecl? t' = u.recordDecl? t' ∧ v.pointee t' = u.pointee t' ∧
      v.referencedRecord t' = u.referencedRecord t' ∧ v.asTypedef t' = u.asTypedef t' ∧
      v.namedEnum t' = u.namedEnum t' ∧ v.functionPointer t' = u.functionPointer t' := by
  have hUnit : (u.addPointers t n).1 = v := congrArg Prod.fst hv
  have hOuter : (u.addPointers t n).2 = p := congrArg Prod.snd hv
  have hExtends : v.Extends u := hUnit ▸ u.extends_addPointers t n
  have hSeen : u.Grounded t → SeenThrough v p u t := by
    intro ht
    rw [← hUnit, ← hOuter]
    exact seenThrough_addPointers ht n
  refine ⟨?_, fun ht => (hSeen ht).record, fun ht hFinite => ?_, fun t' ht' => ?_⟩
  · obtain ⟨n, rfl⟩ := Nat.exists_eq_add_of_le' hn
    rw [← hUnit, ← hOuter]
    exact spelling_addPointers hs n
  · obtain ⟨hReach, hEnd⟩ := exists_stripped hFinite
    obtain ⟨hReach, hEnd⟩ := (hSeen ht).last _ hReach hEnd
    exact stripPointers_of_end hReach hEnd
  · exact ⟨hExtends.recordDecl?_eq ht', hExtends.pointee_eq ht', hExtends.referencedRecord_eq ht',
      hExtends.asTypedef_eq ht', hExtends.namedEnum_eq ht', hExtends.functionPointer_eq ht'⟩

/-- Two pointers (3 and 4) around `struct cell *` (1). -/
theorem addPointers_transparent_cell : 1 ≤ 2 ∧
    (cellUnit.type? ⟨1⟩).map (·.spelling) = some "struct cell *" ∧
    cellUnit.Grounded ⟨1⟩ ∧ Chain.Finite cellUnit.WalkStep ⟨1⟩ ∧
    ∃ v, cellUnit.addPointers ⟨1⟩ 2 = (v, ⟨4⟩) ∧
      (v.type? ⟨4⟩).map (·.spelling) = some "struct cell ***" ∧
      v.referencedRecord ⟨4⟩ = some ⟨0⟩ ∧ v.stripPointers ⟨4⟩ = ⟨0⟩ ∧ v.pointee ⟨1⟩ = some ⟨0⟩ := by
  have hSpelling : (cellUnit.type? ⟨1⟩).map (·.spelling) = some "struct cell *" := by decide
  have hGrounded : cellUnit.Grounded ⟨1⟩ := cellUnit_inRange.grounded (by decide)
  have hReach : Chain.Reaches cellUnit.advance? ⟨1⟩ ⟨0⟩ := .head rfl (.refl _)
  have hFinite : Chain.Finite cellUnit.WalkStep ⟨1⟩ :=
    Chain.finite_of_reaches_end (fun _ _ => advance?_eq_some_iff) hReach rfl
  have hAdded : cellUnit.addPointers ⟨1⟩ 2 = ((cellUnit.addPointers ⟨1⟩ 2).1, ⟨4⟩) := rfl
  obtain ⟨hOuter, hRecord, hStripped, hOld⟩ := addPointers_transparent (by decide) hSpelling hAdded
  refine ⟨by decide, hSpelling, hGrounded, hFinite, _, hAdded, ?_, ?_, ?_, ?_⟩
  · exact hOuter.trans (by decide)
  · exact (hRecord hGrounded).trans (by decide)
  · exact (hStripped hGrounded hFinite).trans (by decide)
  · exact (hOld ⟨1⟩ hGrounded).2.1.trans (by decide)

/-- On a cycle the walk through sugar stops at another place once there is a type more. -/
example : circleUnit.canonical ⟨0⟩ = ⟨1⟩ ∧ (circleUnit.addPointers ⟨0⟩ 1).1.canonical ⟨0⟩ = ⟨0⟩ ∧
    (circleUnit.addPointers ⟨0⟩ 1).1.referencedRecord ⟨6⟩ = none := by decide

end UnitGraph.SourceUnit
