import Mathlib.Logic.Relation
import UnitGraph.Proofs.Extraction.InRange
import UnitGraph.Proofs.Extraction.Nodes

/-!
# Functions that lie apart

In a well nested unit the functions of the top level lie apart, everything below a function lies within it
and the definitions that get a node lie outside. Without flow blocks, a position of a function is then
claimed by nothing but the function, its parameters and the statements below its body.
-/
namespace UnitGraph

open Traversal

namespace SourceUnit

variable {u : SourceUnit}

/-- Both ends of the range are token locations, in stream order. -/
def Resolvable (u : SourceUnit) (r : SourceRange) : Prop :=
  ∃ a b, u.ledger.slot? r.first = some a ∧ u.ledger.slot? r.last = some b ∧ a ≤ b

/-- The first range is resolvable, and its slots are among those of the second. -/
def Within (u : SourceUnit) (r s : SourceRange) : Prop :=
  u.Resolvable r ∧ ∀ i, u.Covers r i → u.Covers s i

/-- The two ranges have no slot in common. -/
def Apart (u : SourceUnit) (r s : SourceRange) : Prop := ∀ i, u.Covers r i → ¬ u.Covers s i

/-- A function, defined or not, stands at a position of the top level. -/
def FunctionAt (u : SourceUnit) (site : Nat) (decl : Decl) : Prop :=
  ∃ d params body, u.topLevel[site]? = some d ∧ u.decl? d = some decl ∧ decl.kind = .function params body

/-- One statement is a child of another. -/
def Child (u : SourceUnit) (s c : StmtId) : Prop := ∃ stmt, u.stmt? s = some stmt ∧ c ∈ stmt.children

theorem functionAt_of_declKind? {site : Nat} {d : DeclId} {f : Decl} {params : List DeclId}
    {body : Option StmtId} (hd : u.topLevel[site]? = some d) (hf : u.decl? d = some f)
    (hk : u.declKind? d = some (.function params body)) : u.FunctionAt site f := by
  obtain ⟨g, hg, hKind⟩ := Option.map_eq_some_iff.mp hk
  cases hf.symm.trans hg
  exact ⟨d, params, body, hd, hf, hKind⟩

end SourceUnit

namespace Job

/-- The ranges of the unit nest as those of written code do. -/
structure WellNested (j : Job) : Prop where
  resolvable : ∀ site f, j.unit.FunctionAt site f → j.unit.Resolvable f.range
  apart : ∀ site site' f f', site ≠ site' → j.unit.FunctionAt site f → j.unit.FunctionAt site' f' →
    j.unit.Apart f.range f'.range
  params : ∀ site d params body f, j.Visits site d params body → j.unit.decl? d = some f →
    ∀ p ∈ params, ∃ decl, j.unit.decl? p = some decl ∧ j.unit.Within decl.range f.range
  stmts : ∀ site d params body f, j.Visits site d params body → j.unit.decl? d = some f →
    ∀ s, Relation.ReflTransGen j.unit.Child body s →
      ∃ stmt, j.unit.stmt? s = some stmt ∧ j.unit.Within stmt.range f.range
  definitions : ∀ e id r, e.access = .shared → j.registry.get? e = some id →
    e.range? j.unit = some r → ∀ site f, j.unit.FunctionAt site f → j.unit.Apart r f.range

/-- The entities among which a function's tokens are shared out. -/
inductive Inner (j : Job) (site : Nat) (d : DeclId) (params : List DeclId) (body : StmtId) : Entity → Prop
  | function : Inner j site d params body (.function site d)
  | param {p : DeclId} : p ∈ params → Inner j site d params body (.decl p)
  | stmt {s : StmtId} : Relation.ReflTransGen j.unit.Child body s → Inner j site d params body (.stmt s)

variable {j : Job} {site site' : Nat} {d d' : DeclId} {params params' : List DeclId} {body body' : StmtId}
  {f f' : Decl} {e : Entity} {i : Nat}

theorem Inner.access (h : j.Inner site d params body e) : e.access = .exclusive := by
  cases h <;> rfl

theorem Visits.functionAt (h : j.Visits site d params body) (hf : j.unit.decl? d = some f) :
    j.unit.FunctionAt site f :=
  SourceUnit.functionAt_of_declKind? h.1 hf (declKind?_of_definition? h.2)

theorem stmt_mem_entities_of_child {s c : StmtId} (hs : .stmt s ∈ j.entities)
    (h : Relation.ReflTransGen j.unit.Child s c) : .stmt c ∈ j.entities := by
  induction h with
  | refl => exact hs
  | tail _ hChild ih =>
      obtain ⟨stmt, hStmt, hMem⟩ := hChild
      exact (Asks.child hStmt hMem).mem_entities ih

theorem Inner.mem_entities (hVisits : j.Visits site d params body) (h : j.Inner site d params body e) :
    e ∈ j.entities := by
  cases h with
  | function => exact (Starts.function hVisits).mem_entities
  | param hp => exact (Starts.param hVisits hp).mem_entities
  | stmt hReach => exact stmt_mem_entities_of_child (Starts.body hVisits).mem_entities hReach

/-- Without flow blocks, statements are met only below the bodies of functions. -/
theorem reached_of_stmt_mem_entities (hFlow : j.options.flowBlocks = false) {s : StmtId}
    (h : .stmt s ∈ j.entities) : ∃ site d params body, j.Visits site d params body ∧
      Relation.ReflTransGen j.unit.Child body s := by
  have hBlock : ∀ f i, j.block? f i = none := by
    intro f i
    simp [block?, blocks, hFlow]
  have hAll : ∀ e ∈ j.entities, ∀ s, e = .stmt s → ∃ site d params body,
      j.Visits site d params body ∧ Relation.ReflTransGen j.unit.Child body s := by
    refine forall_entities ?_ ?_
    · intro e he s hEq
      cases he with
      | body hVisits =>
          cases hEq
          exact ⟨_, _, _, _, hVisits, .refl⟩
      | _ => cases hEq
    · intro e e' ih hAsks s hEq
      cases hAsks with
      | child hs hc =>
          cases hEq
          obtain ⟨site, d, params, body, hVisits, hReach⟩ := ih _ rfl
          exact ⟨site, d, params, body, hVisits, hReach.tail ⟨_, hs, hc⟩⟩
      | blockStmt hb _ =>
          rw [hBlock] at hb
          cases hb
      | _ => cases hEq
  exact hAll _ h s rfl

namespace WellNested

variable (h : j.WellNested)
include h

theorem within_of_inner (hVisits : j.Visits site d params body) (hf : j.unit.decl? d = some f)
    (he : j.Inner site d params body e) {r : SourceRange} (hr : e.range? j.unit = some r)
    (hi : j.unit.Covers r i) : j.unit.Covers f.range i := by
  cases he with
  | function =>
      simp only [Entity.range?, hf, Option.map_some, Option.some.injEq] at hr
      exact hr ▸ hi
  | @param p hp =>
      obtain ⟨decl, hDecl, _, hWithin⟩ := h.params site d params body f hVisits hf p hp
      simp only [Entity.range?, hDecl, Option.map_some, Option.some.injEq] at hr
      exact hWithin i (hr ▸ hi)
  | @stmt s hReach =>
      obtain ⟨stmt, hStmt, _, hWithin⟩ := h.stmts site d params body f hVisits hf s hReach
      simp only [Entity.range?, hStmt, Option.map_some, Option.some.injEq] at hr
      exact hWithin i (hr ▸ hi)

/-- Functions that cover one position stand at one place. -/
theorem site_unique (hf : j.unit.FunctionAt site f) (hf' : j.unit.FunctionAt site' f')
    (hi : j.unit.Covers f.range i) (hi' : j.unit.Covers f'.range i) : site = site' := by
  by_contra hne
  exact h.apart site site' f f' hne hf hf' i hi hi'

theorem visits_unique (hVisits : j.Visits site d params body) (hf : j.unit.decl? d = some f)
    (hVisits' : j.Visits site' d' params' body') (hf' : j.unit.decl? d' = some f')
    (hi : j.unit.Covers f.range i) (hi' : j.unit.Covers f'.range i) :
    site' = site ∧ d' = d ∧ params' = params ∧ body' = body := by
  have hSite := h.site_unique (hVisits.functionAt hf) (hVisits'.functionAt hf') hi hi'
  subst hSite
  cases hVisits.1.symm.trans hVisits'.1
  cases hVisits.2.symm.trans hVisits'.2
  exact ⟨rfl, rfl, rfl, rfl⟩

theorem not_takes_skip (hVisits : j.Visits site d params body) (hf : j.unit.decl? d = some f)
    (hi : j.unit.Covers f.range i) (hd' : j.unit.topLevel[site']? = some d') (hSkip : j.unit.Skipped d') :
    j.unit.takes (.skip d') i ≠ true := by
  intro hTakes
  obtain ⟨f', hf', hi'⟩ := SourceUnit.takes_skip_iff.mp hTakes
  obtain ⟨⟨_, _, hKind⟩, hNone⟩ := hSkip
  have hAt' := SourceUnit.functionAt_of_declKind? hd' hf' hKind
  have hSite := h.site_unique (hVisits.functionAt hf) hAt' hi hi'
  subst hSite
  cases hVisits.1.symm.trans hd'
  cases hVisits.2.symm.trans hNone

/-- An inner entity of some function that claims a position of a function is inner to the latter. -/
theorem inner_of_inner (hVisits : j.Visits site d params body) (hf : j.unit.decl? d = some f)
    (hVisits' : j.Visits site' d' params' body') (he : j.Inner site' d' params' body' e)
    (hi : j.unit.Covers f.range i) (hTakes : j.unit.takes (.claim e) i = true) :
    j.Inner site d params body e := by
  obtain ⟨r, hr, hCovers⟩ := SourceUnit.takes_claim_iff.mp hTakes
  obtain ⟨f', hf', _⟩ := Option.bind_eq_some_iff.mp hVisits'.2
  have hi' := h.within_of_inner hVisits' hf' he hr hCovers
  obtain ⟨rfl, rfl, rfl, rfl⟩ := h.visits_unique hVisits hf hVisits' hf' hi hi'
  exact he

/-- Whatever takes a position of a function is the claim of an inner entity. -/
theorem inner_of_takes (hFlow : j.options.flowBlocks = false) (hVisits : j.Visits site d params body)
    (hf : j.unit.decl? d = some f) {m : Mark} (hm : m ∈ marks j.events) (hi : j.unit.Covers f.range i)
    (hTakes : j.unit.takes m i = true) : ∃ e, m = .claim e ∧ j.Inner site d params body e := by
  cases m with
  | noFlow d' e => cases hTakes
  | skip d' =>
      obtain ⟨hd', hSkip⟩ := skip_mem_marks_iff.mp hm
      obtain ⟨site', hd'⟩ := List.getElem?_of_mem hd'
      exact absurd hTakes (h.not_takes_skip hVisits hf hi hd' hSkip)
  | claim e =>
      refine ⟨e, rfl, ?_⟩
      have hClaims := claim_mem_marks_iff.mp hm
      have hExclusive : e.access = .exclusive := by
        cases hAccess : e.access with
        | exclusive => rfl
        | shared =>
            obtain ⟨r, hr, hCovers⟩ := SourceUnit.takes_claim_iff.mp hTakes
            have hNode := registry_idOf hClaims.mem_entities
            have hApart := h.definitions e _ r hAccess hNode hr site f (hVisits.functionAt hf)
            exact absurd hi (hApart i hCovers)
      cases hClaims with
      | param hVisits' hp => exact h.inner_of_inner hVisits hf hVisits' (.param hp) hi hTakes
      | function hVisits' => exact h.inner_of_inner hVisits hf hVisits' .function hi hTakes
      | itself he hOwn =>
          cases e with
          | stmt s =>
              obtain ⟨_, _, _, _, hVisits', hReach⟩ := reached_of_stmt_mem_entities hFlow he
              exact h.inner_of_inner hVisits hf hVisits' (.stmt hReach) hi hTakes
          | decl p => cases hOwn
          | block f' i' => cases hOwn
          | function site' d' => cases hOwn
          | record d' => cases hExclusive
          | enum d' => cases hExclusive
          | typedef d' => cases hExclusive

/-- Every position of a function is awarded to an inner entity. -/
theorem exists_inner_awarded (hFlow : j.options.flowBlocks = false)
    (hVisits : j.Visits site d params body) (hf : j.unit.decl? d = some f)
    (hi : j.unit.Covers f.range i) : ∃ e, j.Inner site d params body e ∧ j.awarded e i = true := by
  have hClaim : .claim (.function site d) ∈ marks j.events := claim_mem_marks_iff.mpr (.function hVisits)
  have hTakes : j.unit.takes (.claim (.function site d)) i = true :=
    SourceUnit.takes_claim_iff.mpr ⟨f.range, by simp [Entity.range?, hf], hi⟩
  rcases SourceUnit.awarded_or_skip hClaim hTakes with ⟨e, hMem, hAward⟩ | ⟨d', hFirst⟩
  · have hTakes := (SourceUnit.claim_of_awarded hAward).2
    obtain ⟨e', hEq, hInner⟩ := h.inner_of_takes hFlow hVisits hf hMem hi hTakes
    cases hEq
    exact ⟨e, hInner, hAward⟩
  · have hMem := SourceUnit.mem_of_firstTaker? hFirst
    have hTakes := SourceUnit.takes_of_firstTaker? hFirst
    obtain ⟨e', hEq, _⟩ := h.inner_of_takes hFlow hVisits hf hMem hi hTakes
    cases hEq

end WellNested

end Job

section Cell

theorem cellUnit_slot : ∀ l < 28, cellUnit.ledger.slot? l = some l := by decide

theorem cellUnit_covers_iff {r : SourceRange} (hFirst : r.first < 28) (hLast : r.last < 28) {i : Nat} :
    cellUnit.Covers r i ↔ r.first ≤ i ∧ i ≤ r.last := by
  constructor
  · intro h
    obtain ⟨a, b, ha, hb, h⟩ := h
    cases (cellUnit_slot _ hFirst).symm.trans ha
    cases (cellUnit_slot _ hLast).symm.trans hb
    exact h
  · intro h
    exact ⟨_, _, cellUnit_slot _ hFirst, cellUnit_slot _ hLast, h⟩

theorem cellUnit_functionAt {site : Nat} {f : Decl} (h : cellUnit.FunctionAt site f) :
    site = 1 ∧ f.range = ⟨10, 22⟩ ∨ site = 2 ∧ f.range = ⟨23, 26⟩ := by
  obtain ⟨d, params, body, hd, hf, hk⟩ := h
  match site, hd with
  | 0, rfl => cases hf; cases hk
  | 1, rfl => cases hf; exact Or.inl ⟨rfl, rfl⟩
  | 2, rfl => cases hf; exact Or.inr ⟨rfl, rfl⟩

theorem cellUnit_reached {s : StmtId} (h : Relation.ReflTransGen cellUnit.Child ⟨0⟩ s) : s.index < 3 := by
  induction h with
  | refl => decide
  | tail _ hc _ =>
      obtain ⟨stmt, hs, hc⟩ := hc
      exact cellUnit_inRange.stmtChildren stmt (Array.mem_of_getElem? hs) _ hc

theorem cellUnit_within {r : SourceRange} (h : 10 ≤ r.first ∧ r.first ≤ r.last ∧ r.last ≤ 22) :
    cellUnit.Within r ⟨10, 22⟩ := by
  have hFirst := cellUnit_slot r.first (by omega)
  have hLast := cellUnit_slot r.last (by omega)
  constructor
  · exact ⟨_, _, hFirst, hLast, h.2.1⟩
  · intro i hi
    rw [cellUnit_covers_iff (by omega) (by omega)] at hi
    rw [cellUnit_covers_iff (by decide) (by decide)]
    simp only
    omega

theorem cellJob_visits {flowBlocks : Bool} {site : Nat} {d : DeclId} {params : List DeclId}
    {body : StmtId} (h : (cellJob flowBlocks).Visits site d params body) :
    site = 1 ∧ d = ⟨2⟩ ∧ params = [⟨3⟩] ∧ body = ⟨0⟩ := by
  obtain ⟨hd, hDef⟩ := h
  match site, hd with
  | 0, rfl => cases hDef
  | 1, rfl => cases hDef; exact ⟨rfl, rfl, rfl, rfl⟩
  | 2, rfl => cases hDef

theorem cellUnit_apart {r s : SourceRange} (hr : r.last < 28) (hs : s.last < 28)
    (h : r.first ≤ r.last ∧ r.last < s.first ∧ s.first ≤ s.last ∨
      s.first ≤ s.last ∧ s.last < r.first ∧ r.first ≤ r.last) : cellUnit.Apart r s := by
  intro i hi hi'
  rw [cellUnit_covers_iff (by omega) hr] at hi
  rw [cellUnit_covers_iff (by omega) hs] at hi'
  omega

theorem cellJob_wellNested : (cellJob false).WellNested where
  resolvable site f hf := by
    rcases cellUnit_functionAt hf with ⟨_, hr⟩ | ⟨_, hr⟩ <;> rw [hr]
    · exact ⟨10, 22, by decide, by decide, by decide⟩
    · exact ⟨23, 26, by decide, by decide, by decide⟩
  apart site site' f f' hne hf hf' := by
    rcases cellUnit_functionAt hf with ⟨hs, hr⟩ | ⟨hs, hr⟩ <;>
      rcases cellUnit_functionAt hf' with ⟨hs', hr'⟩ | ⟨hs', hr'⟩ <;> rw [hr, hr']
    · omega
    · exact cellUnit_apart (by decide) (by decide) (by decide)
    · exact cellUnit_apart (by decide) (by decide) (by decide)
    · omega
  params site d params body f hVisits hf p hp := by
    obtain ⟨rfl, rfl, rfl, rfl⟩ := cellJob_visits hVisits
    cases hf
    cases List.mem_singleton.mp hp
    exact ⟨_, rfl, cellUnit_within (by decide)⟩
  stmts site d params body f hVisits hf s hs := by
    obtain ⟨rfl, rfl, rfl, rfl⟩ := cellJob_visits hVisits
    cases hf
    match s, cellUnit_reached hs with
    | ⟨0⟩, _ | ⟨1⟩, _ | ⟨2⟩, _ => exact ⟨_, rfl, cellUnit_within (by decide)⟩
  definitions e id r hAccess hNode hr site f hf := by
    have hOnly : ∀ e ∈ (cellJob false).entities, e.access = .shared → e = .record ⟨0⟩ := by
      decide +kernel
    cases hOnly e (Job.mem_entities_of_registry hNode) hAccess
    cases hr
    rcases cellUnit_functionAt hf with ⟨_, hr⟩ | ⟨_, hr⟩ <;> rw [hr]
    · exact cellUnit_apart (by decide) (by decide) (by decide)
    · exact cellUnit_apart (by decide) (by decide) (by decide)

end Cell

end UnitGraph
