import UnitGraph.Proofs.Assembly.History
import UnitGraph.Proofs.Extraction.Coverage
import UnitGraph.Proofs.Extraction.Nesting
import UnitGraph.Proofs.Traversal.Order

/-!
# Tokens go to the innermost node

A statement claims after its children, and a function after its parameters and everything below its body.
Main statement: what lies in the range of a statement is therefore not held by the statements above it, nor
by the node of a function above it; it is held by another node or was taken by a skipped function.
-/
namespace UnitGraph

open Traversal

variable {j : Job}

/-- An exclusive entity holds nothing that an earlier mark takes. -/
theorem SourceUnit.not_takes_of_precedes {u : SourceUnit} {ms : List Mark} {e : Entity} {m : Mark} {i : Nat}
    (he : e.access = .exclusive) (hAward : u.awarded ms e i = true) (h : Precedes ms m (.claim e)) :
    u.takes m i = false := by
  have hFirst : u.firstTaker? ms i = some (.claim e) := by simpa [awarded, he] using hAward
  by_contra hTakes
  rw [Bool.not_eq_false] at hTakes
  exact not_precedes_of_find? hFirst hTakes h

namespace Job

/-- A node holds nothing in the range of an entity that claims before its own. -/
theorem not_covers_of_precedes {e e' : Entity} {id : NodeId} {r : SourceRange} {t : Token}
    (he : e.access = .exclusive) (hNode : j.registry.get? e = some id)
    (h : Precedes (marks j.events) (.claim e') (.claim e)) (hr : e'.range? j.unit = some r)
    (ht : t ∈ j.codeGraph.arena.tokensOf id) : ¬ j.unit.Covers r t.index := by
  intro hCovers
  have hAward := ((mem_tokensOf_iff hNode).mp ht).2
  have hNot := SourceUnit.not_takes_of_precedes he hAward h
  rw [SourceUnit.takes_claim_iff.mpr ⟨r, hr, hCovers⟩] at hNot
  cases hNot

section Statements

/-- From a statement, only children lead to statements. -/
theorem child_of_leads {s : StmtId} {e : Entity}
    (h : Relation.ReflTransGen (Leads j.agenda) (.stmt s) e) :
    (∀ s', e = .stmt s' → Relation.ReflTransGen j.unit.Child s s') ∧ ∀ f i, e ≠ .block f i := by
  induction h with
  | refl =>
      constructor
      · intro s' hEq
        cases hEq
        exact .refl
      · intro f i hEq
        cases hEq
  | @tail x y _ hStep ih =>
      have hAsks : j.Asks x y := mem_requested_agenda.mp hStep
      constructor
      · intro s' hEq
        subst hEq
        cases hAsks with
        | child hs hc => exact (ih.1 _ rfl).tail ⟨_, hs, hc⟩
        | blockStmt _ _ => exact absurd rfl (ih.2 _ _)
      · intro f i hEq
        subst hEq
        cases hAsks with
        | blockTarget _ _ => exact absurd rfl (ih.2 _ _)

/-- A child claims before its parent, unless the parent lies below the child as well. -/
theorem claim_child_precedes {s c : StmtId} {child : Stmt} (hs : .stmt s ∈ j.entities)
    (hChild : j.unit.Child s c) (hc : j.unit.stmt? c = some child)
    (hBack : ¬ Relation.ReflTransGen j.unit.Child c s) :
    Precedes (marks j.events) (.claim (.stmt c)) (.claim (.stmt s)) := by
  obtain ⟨stmt, hStmt, hMem⟩ := hChild
  have hLast : j.agenda (.stmt s) = (stmt.children.map (.visit <| .stmt ·) ++
      stmt.decls.map (.visit <| .decl ·) ++ stmt.referenced.toList.map (.visit <| .decl ·)) ++
        [.mark (.claim (.stmt s))] := by simp [agenda, hStmt]
  have hBack' : ¬ Relation.ReflTransGen (Leads j.agenda) (.stmt c) (.stmt s) := fun h =>
    hBack ((child_of_leads h).1 s rfl)
  have hAfter := (last_comesAfter j.closed_pool hLast (by simp [hMem]) hBack' requested_program_pool
    hs).resolve_left List.not_mem_nil
  apply hAfter.precedes (count_claim_of_claimsItself (by simp [claimsItself, hStmt]))
  simp [itemMarks_agenda, claimsItself, hc]

/-- Without cycles among the statements, whatever lies below a statement claims before it. -/
theorem claim_below_precedes (hAcyclic : ∀ s, ¬ Relation.TransGen j.unit.Child s s) {s c : StmtId}
    {below : Stmt} (hs : .stmt s ∈ j.entities) (h : Relation.TransGen j.unit.Child s c)
    (hc : j.unit.stmt? c = some below) :
    Precedes (marks j.events) (.claim (.stmt c)) (.claim (.stmt s)) := by
  have hStep : ∀ {b c : StmtId} {child : Stmt}, Relation.ReflTransGen j.unit.Child s b → j.unit.Child b c →
      j.unit.stmt? c = some child →
      Precedes (marks j.events) (.claim (.stmt c)) (.claim (.stmt b)) := by
    intro b c child hb hChild hc
    apply claim_child_precedes (stmt_mem_entities_of_child hs hb) hChild hc
    exact fun hBack => hAcyclic b (.head' hChild hBack)
  induction h generalizing below with
  | single hChild => exact hStep .refl hChild hc
  | @tail b c hb hChild ih =>
      have hFirst := hStep hb.to_reflTransGen hChild hc
      obtain ⟨stmt, hStmt, _⟩ := hChild
      exact hFirst.trans (ih hStmt)

end Statements

section Functions
variable {site : Nat} {d : DeclId} {params : List DeclId} {body : StmtId}

/-- What the top level does up to the claim of a function: in the end the function's parameters, each with
its claim, and the function's body. -/
theorem exists_program_split (hVisits : j.Visits site d params body) :
    ∃ front back, j.program = front ++ .mark (.claim (.function site d)) :: back ∧
      (∀ p ∈ params, .claim (.decl p) ∈ itemMarks front) ∧ .stmt body ∈ requested front := by
  have hMem : (d, site) ∈ j.unit.topLevel.zipIdx := List.mem_zipIdx_iff_getElem?.mpr hVisits.1
  obtain ⟨before, after, hSplit⟩ := List.append_of_mem hMem
  refine ⟨(before.flatMap fun f => j.siteAgenda f.2 f.1) ++
      (params.flatMap (fun p => [.visit (.decl p), .mark (.claim (.decl p))]) ++ [.visit (.stmt body)]),
    j.flowAgenda d ++ [.visit (.function site d)] ++ after.flatMap fun f => j.siteAgenda f.2 f.1,
    ?_, ?_, ?_⟩
  · have hSite := siteAgenda_of_definition hVisits.2 site
    simp [program, hSplit, hSite, functionAgenda]
  · intro p hp
    simp [itemMarks_flatMap, hp]
  · simp

/-- Whatever has been claimed when a function's own claim is due precedes it. -/
theorem precedes_function {front back : List (Item Entity Mark)} {e : Entity}
    (hSplit : j.program = front ++ .mark (.claim (.function site d)) :: back)
    (he : .claim e ∈ marks (run j.agenda j.pool [] front)) :
    Precedes (marks j.events) (.claim e) (.claim (.function site d)) := by
  have hMarks : ComesAfter (marks j.events) (.claim (.function site d))
      (marks (run j.agenda j.pool [] front)) := by
    rw [events, Traversal.traverse, hSplit, run_append, marks_append, run_mark, marks_cons_marked]
    exact comesAfter_append List.mem_cons_self fun _ hk => hk
  exact hMarks.precedes (j.count_claim_function site d) he

theorem claim_below_function (hVisits : j.Visits site d params body) {e : Entity}
    (he : (∃ p ∈ params, e = .decl p) ∨ ∃ s stmt, e = .stmt s ∧ j.unit.stmt? s = some stmt ∧
      Relation.ReflTransGen j.unit.Child body s) :
    Precedes (marks j.events) (.claim e) (.claim (.function site d)) := by
  obtain ⟨front, back, hSplit, hParams, hBody⟩ := exists_program_split hVisits
  have hPool : ∀ b ∈ requested front, b ∈ j.pool := by
    intro b hb
    apply requested_program_pool
    rw [hSplit, requested_append]
    exact List.mem_append_left _ hb
  apply precedes_function hSplit
  rcases he with ⟨p, hp, rfl⟩ | ⟨s, stmt, rfl, hStmt, hReach⟩
  · exact mem_marks_of_itemMarks j.closed_pool hPool (hParams p hp)
  · have hEntered : .stmt s ∈ entered (run j.agenda j.pool [] front) := by
      clear hStmt
      induction hReach with
      | refl =>
          exact (mem_entered_of_requested j.closed_pool hPool _ hBody).resolve_left List.not_mem_nil
      | tail _ hChild ih =>
          obtain ⟨parent, hParent, hMem⟩ := hChild
          have hAsks := mem_requested_agenda.mpr (Asks.child hParent hMem)
          exact (mem_entered_of_entered j.closed_pool hPool _ ih _ hAsks).resolve_left List.not_mem_nil
    apply mem_marks_of_entered j.closed_pool hPool hEntered
    simp [itemMarks_agenda, claimsItself, hStmt]

end Functions

/-- What a claiming entity covers and does not hold, another node holds or a skipped function covers. -/
theorem elsewhere_or_drained {e : Entity} {id : NodeId} {r : SourceRange} {i : Nat} (hClaims : j.Claims e)
    (hr : e.range? j.unit = some r) (hCovers : j.unit.Covers r i)
    (hNot : ∀ t ∈ j.codeGraph.arena.tokensOf id, t.index ≠ i) :
    (∃ id', id' ≠ id ∧ ∃ t ∈ j.codeGraph.arena.tokensOf id', t.index = i) ∨ j.Drained i := by
  have hTakes := SourceUnit.takes_claim_iff.mpr ⟨r, hr, hCovers⟩
  rcases owned_or_drained (claim_mem_marks_iff.mpr hClaims) hTakes with hOwned | hDrained
  · obtain ⟨id', t, ht, hi⟩ := hOwned
    refine Or.inl ⟨id', ?_, t, ht, hi⟩
    rintro rfl
    exact hNot t ht hi
  · exact Or.inr hDrained

/-- On every unit and for every frontend. -/
theorem tokens_of_node_innermost (j : Job) :
    ((∀ s, ¬ Relation.TransGen j.unit.Child s s) →
      ∀ s c id stmt, j.registry.get? (.stmt s) = some id → Relation.TransGen j.unit.Child s c →
        j.unit.stmt? c = some stmt →
        ∀ t ∈ j.codeGraph.arena.tokensOf id, ¬ j.unit.Covers stmt.range t.index) ∧
    (∀ site d params body id, j.unit.definition? d = some (params, body) →
      j.registry.get? (.function site d) = some id → ∀ t ∈ j.codeGraph.arena.tokensOf id,
        (∀ p ∈ params, ∀ decl, j.unit.decl? p = some decl → ¬ j.unit.Covers decl.range t.index) ∧
        ∀ s stmt, Relation.ReflTransGen j.unit.Child body s → j.unit.stmt? s = some stmt →
          ¬ j.unit.Covers stmt.range t.index) ∧
    ∀ e id r i, ((∃ s, e = .stmt s) ∨ ∃ site d, e = .function site d) → j.registry.get? e = some id →
      e.range? j.unit = some r → j.unit.Covers r i →
      (∀ t ∈ j.codeGraph.arena.tokensOf id, t.index ≠ i) →
      (∃ id', id' ≠ id ∧ ∃ t ∈ j.codeGraph.arena.tokensOf id', t.index = i) ∨ j.Drained i := by
  refine ⟨?_, ?_, ?_⟩
  · intro hAcyclic s c id stmt hNode hBelow hStmt t ht
    have hFirst := claim_below_precedes hAcyclic (mem_entities_of_registry hNode) hBelow hStmt
    exact not_covers_of_precedes rfl hNode hFirst (by simp [Entity.range?, hStmt]) ht
  · intro site d params body id hDef hNode t ht
    obtain ⟨params', body', hSite, hDef'⟩ := visits_of_mem_entities (mem_entities_of_registry hNode)
    have hVisits : j.Visits site d params body := ⟨hSite, hDef⟩
    constructor
    · intro p hp decl hDecl
      have hFirst := claim_below_function hVisits (.inl ⟨p, hp, rfl⟩)
      exact not_covers_of_precedes rfl hNode hFirst (by simp [Entity.range?, hDecl]) ht
    · intro s stmt hReach hStmt
      have hFirst := claim_below_function hVisits (.inr ⟨s, stmt, rfl, hStmt, hReach⟩)
      exact not_covers_of_precedes rfl hNode hFirst (by simp [Entity.range?, hStmt]) ht
  · intro e id r i he hNode hr hCovers hNot
    have hMem := mem_entities_of_registry hNode
    refine elsewhere_or_drained ?_ hr hCovers hNot
    rcases he with ⟨s, rfl⟩ | ⟨site, d, rfl⟩
    · obtain ⟨stmt, hStmt, _⟩ := Option.map_eq_some_iff.mp hr
      exact .itself hMem (by simp [claimsItself, hStmt])
    · obtain ⟨params, body, hVisits⟩ := visits_of_mem_entities hMem
      exact .function hVisits

theorem cellUnit_acyclic (s : StmtId) : ¬ Relation.TransGen cellUnit.Child s s := by
  have hChild : ∀ s c, cellUnit.Child s c → s.index < c.index := by
    intro s c h
    obtain ⟨stmt, hStmt, hMem⟩ := h
    match s, hStmt with
    | ⟨0⟩, rfl | ⟨1⟩, rfl => cases List.mem_singleton.mp hMem; decide
    | ⟨2⟩, rfl => cases hMem
  have hBelow : ∀ c, Relation.TransGen cellUnit.Child s c → s.index < c.index := by
    intro c h
    induction h with
    | single h => exact hChild _ _ h
    | tail _ h ih => exact Nat.lt_trans ih (hChild _ _ h)
  exact fun h => Nat.lt_irrefl _ (hBelow s h)

theorem tokens_of_node_innermost_cell : (∀ s, ¬ Relation.TransGen cellUnit.Child s s) ∧
    (∀ t ∈ (cellJob true).codeGraph.arena.tokensOf ⟨2⟩, ¬ cellUnit.Covers ⟨20, 20⟩ t.index) ∧
    ∀ t ∈ (cellJob true).codeGraph.arena.tokensOf ⟨6⟩, ¬ cellUnit.Covers ⟨13, 16⟩ t.index := by
  obtain ⟨hStmts, hFunctions, _⟩ := tokens_of_node_innermost (cellJob true)
  refine ⟨cellUnit_acyclic, ?_, ?_⟩
  · have hBelow : Relation.TransGen cellUnit.Child ⟨0⟩ ⟨2⟩ :=
      .tail (.single ⟨_, rfl, List.mem_singleton.mpr rfl⟩) ⟨_, rfl, List.mem_singleton.mpr rfl⟩
    exact hStmts cellUnit_acyclic ⟨0⟩ ⟨2⟩ ⟨2⟩ _ (by decide) hBelow rfl
  · intro t ht
    exact (hFunctions 1 ⟨2⟩ [⟨3⟩] ⟨0⟩ ⟨6⟩ rfl (by decide) t ht).1 ⟨3⟩ (by simp) _ rfl

end Job

end UnitGraph
