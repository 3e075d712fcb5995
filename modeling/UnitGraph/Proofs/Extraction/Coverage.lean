import UnitGraph.Proofs.Extraction.Nodes

/-!
# No token is lost

Main statement: a position in the slots of an entity that claims is held by some node unless a skipped
function covers it, no node holds a position outside the slots of its entity, and the positions taken at
the end are those held by nodes and those that skipped functions cover.
-/
namespace UnitGraph.Job

open Traversal

/-- The ranges whose tokens an extraction is to give to its nodes: those of the defined functions at top
level, of their parameters, of the statements with a node, and of the records, enumerations and typedefs
with a node of that kind. -/
inductive Owed (j : Job) : SourceRange → Prop
  | function {d : DeclId} {decl : Decl} : d ∈ j.unit.topLevel → j.unit.decl? d = some decl →
      decl.definition?.isSome → Owed j decl.range
  | param {d p : DeclId} {params : List DeclId} {body : StmtId} {decl : Decl} : d ∈ j.unit.topLevel →
      j.unit.definition? d = some (params, body) → p ∈ params → j.unit.decl? p = some decl →
      Owed j decl.range
  | stmt {s : StmtId} {id : NodeId} {stmt : Stmt} : j.registry.get? (.stmt s) = some id →
      j.unit.stmt? s = some stmt → Owed j stmt.range
  | record {d : DeclId} {id : NodeId} {decl : Decl} : j.registry.get? (.record d) = some id →
      j.unit.decl? d = some decl → Owed j decl.range
  | enum {d : DeclId} {id : NodeId} {decl : Decl} : j.registry.get? (.enum d) = some id →
      j.unit.decl? d = some decl → Owed j decl.range
  | typedef {d : DeclId} {id : NodeId} {decl : Decl} : j.registry.get? (.typedef d) = some id →
      j.unit.decl? d = some decl → Owed j decl.range

/-- Some node lists the token at a stream position. -/
def Owned (j : Job) (i : Nat) : Prop := ∃ id, ∃ t ∈ j.codeGraph.arena.tokensOf id, t.index = i

/-- A skipped function of the top level covers a stream position. -/
def Drained (j : Job) (i : Nat) : Prop :=
  ∃ d ∈ j.unit.topLevel, j.unit.Skipped d ∧ ∃ decl, j.unit.decl? d = some decl ∧ j.unit.Covers decl.range i

variable {j : Job}

theorem owned_of_awarded {e : Entity} {i : Nat} (h : j.awarded e i = true) : j.Owned i := by
  obtain ⟨hClaims, hTakes⟩ := claims_of_awarded h
  obtain ⟨t, ht, rfl⟩ := Ledger.mem_tokens_of_lt (SourceUnit.lt_size_of_takes hTakes)
  exact ⟨j.idOf e, t, (mem_tokensOf_iff (registry_idOf hClaims.mem_entities)).mpr ⟨ht, h⟩, rfl⟩

theorem drained_iff {i : Nat} :
    j.Drained i ↔ ∃ d, .skip d ∈ marks j.events ∧ j.unit.takes (.skip d) i = true := by
  simp only [skip_mem_marks_iff, SourceUnit.takes_skip_iff]
  constructor
  · intro h
    obtain ⟨d, hd, hSkip, h⟩ := h
    exact ⟨d, ⟨hd, hSkip⟩, h⟩
  · intro h
    obtain ⟨d, ⟨hd, hSkip⟩, h⟩ := h
    exact ⟨d, hd, hSkip, h⟩

/-- Whatever a mark of the extraction takes is held by a node or covered by a skipped function. -/
theorem owned_or_drained {m : Mark} {i : Nat} (hm : m ∈ marks j.events) (h : j.unit.takes m i = true) :
    j.Owned i ∨ j.Drained i := by
  obtain ⟨e, _, he⟩ | ⟨d, hd⟩ := SourceUnit.awarded_or_skip hm h
  · exact Or.inl (owned_of_awarded he)
  · exact Or.inr (drained_iff.mpr ⟨d, SourceUnit.mem_of_firstTaker? hd, SourceUnit.takes_of_firstTaker? hd⟩)

theorem Owed.claims {r : SourceRange} (h : j.Owed r) :
    ∃ e, j.Claims e ∧ e.range? j.unit = some r := by
  cases h with
  | @function d decl hd hDecl hDef =>
      obtain ⟨site, hSite⟩ := List.getElem?_of_mem hd
      obtain ⟨⟨params, body⟩, hDef⟩ := Option.isSome_iff_exists.mp hDef
      have hVisits : j.Visits site d params body := ⟨hSite, by simp [SourceUnit.definition?, hDecl, hDef]⟩
      exact ⟨_, .function hVisits, by simp [Entity.range?, hDecl]⟩
  | param hd hDef hp hDecl =>
      obtain ⟨site, hSite⟩ := List.getElem?_of_mem hd
      exact ⟨_, .param ⟨hSite, hDef⟩ hp, by simp [Entity.range?, hDecl]⟩
  | stmt hNode hStmt =>
      have hOwn := Claims.itself (mem_entities_of_registry hNode) (by simp [claimsItself, hStmt])
      exact ⟨_, hOwn, by simp [Entity.range?, hStmt]⟩
  | record hNode hDecl =>
      exact ⟨_, .itself (mem_entities_of_registry hNode) rfl, by simp [Entity.range?, hDecl]⟩
  | enum hNode hDecl =>
      exact ⟨_, .itself (mem_entities_of_registry hNode) rfl, by simp [Entity.range?, hDecl]⟩
  | typedef hNode hDecl =>
      exact ⟨_, .itself (mem_entities_of_registry hNode) rfl, by simp [Entity.range?, hDecl]⟩

theorem tokens_of_units_not_lost (j : Job) :
    (∀ r i, j.Owed r → j.unit.Covers r i → j.Owned i ∨ j.Drained i) ∧
    (∀ id, ∀ t ∈ j.codeGraph.arena.tokensOf id, ∃ e r, j.registry.get? e = some id ∧
      e.range? j.unit = some r ∧ j.unit.Covers r t.index) ∧
    ∀ i, (j.unit.settledLedger j.unit.ledger (marks j.events)).takenAt i = true ↔
      j.Owned i ∨ j.Drained i := by
  refine ⟨?_, ?_, ?_⟩
  · intro r i hOwed hCovers
    obtain ⟨e, hClaims, hr⟩ := hOwed.claims
    exact owned_or_drained (claim_mem_marks_iff.mpr hClaims)
      (SourceUnit.takes_claim_iff.mpr ⟨r, hr, hCovers⟩)
  · intro id t ht
    obtain ⟨e, he, _, hAward⟩ := exists_entity_of_token ht
    obtain ⟨r, hr, hCovers⟩ := SourceUnit.takes_claim_iff.mp (claims_of_awarded hAward).2
    exact ⟨e, r, he, hr, hCovers⟩
  · intro i
    rw [SourceUnit.takenAt_settledLedger rfl, SourceUnit.ledger, Ledger.takenAt_ofLexemes]
    constructor
    · intro h
      obtain ⟨m, hm, hTakes⟩ := h.resolve_left Bool.false_ne_true
      exact owned_or_drained hm hTakes
    · intro h
      right
      rcases h with ⟨id, t, ht, rfl⟩ | hDrained
      · obtain ⟨e, _, _, hAward⟩ := exists_entity_of_token ht
        obtain ⟨hClaims, hTakes⟩ := claims_of_awarded hAward
        exact ⟨.claim e, claim_mem_marks_iff.mpr hClaims, hTakes⟩
      · obtain ⟨d, hm, hTakes⟩ := drained_iff.mp hDrained
        exact ⟨.skip d, hm, hTakes⟩

end UnitGraph.Job
