import UnitGraph.Extraction.CodeGraph
import UnitGraph.Proofs.Extraction.Entities
import UnitGraph.Proofs.Extraction.Settlement
import UnitGraph.Proofs.Registry

/-!
# The nodes of a code graph

The arena holds the entities in the order in which they are entered, one node each, so that a node and its
entity determine one another. The tokens of a node are those that its entity is to hold.
-/
namespace UnitGraph.Job

open Traversal

variable {j : Job}

theorem registry_get?_iff {e : Entity} {id : NodeId} :
    j.registry.get? e = some id ↔ j.entities[id.index]? = some e := by
  rw [registry, Registry.get?_ofKeys j.entities_nodup]
  constructor
  · intro h
    obtain ⟨i, hi, rfl⟩ := h
    exact hi
  · intro h
    exact ⟨id.index, h, rfl⟩

theorem idOf_of_registry {e : Entity} {id : NodeId} (h : j.registry.get? e = some id) :
    j.idOf e = id := by rw [idOf, h]; rfl

theorem mem_entities_of_registry {e : Entity} {id : NodeId} (h : j.registry.get? e = some id) :
    e ∈ j.entities := List.mem_of_getElem? (registry_get?_iff.mp h)

theorem registry_idOf {e : Entity} (h : e ∈ j.entities) : j.registry.get? e = some (j.idOf e) := by
  obtain ⟨i, hi⟩ := List.getElem?_of_mem h
  have hr : j.registry.get? e = some ⟨i⟩ := registry_get?_iff.mpr hi
  rw [idOf_of_registry hr, hr]

theorem registry_inj {e e' : Entity} {id : NodeId} (h : j.registry.get? e = some id)
    (h' : j.registry.get? e' = some id) : e = e' :=
  Option.some.inj ((registry_get?_iff.mp h).symm.trans (registry_get?_iff.mp h'))

theorem idOf_inj {e e' : Entity} (he : e ∈ j.entities) (he' : e' ∈ j.entities) (h : j.idOf e = j.idOf e') :
    e = e' := by
  have hNode := registry_idOf he
  rw [h] at hNode
  exact registry_inj hNode (registry_idOf he')

theorem arena_get? (j : Job) (id : NodeId) : j.codeGraph.arena.get? id =
    (j.entities[id.index]?).map fun e => j.nodeOf j.idOf (holdings j.outcomes e) e := by
  have hKeys : j.registry.keys = j.entities := Registry.keys_ofKeys _ j.entities_nodup
  simp only [codeGraph, Arena.get?, hKeys, List.getElem?_toArray, List.getElem?_map]
  rfl

theorem size_arena (j : Job) : j.codeGraph.arena.size = j.entities.length := by
  have hKeys : j.registry.keys = j.entities := Registry.keys_ofKeys _ j.entities_nodup
  simp [codeGraph, Arena.size, hKeys]

theorem arena_get?_of_registry {e : Entity} {id : NodeId} (h : j.registry.get? e = some id) :
    j.codeGraph.arena.get? id = some (j.nodeOf j.idOf (holdings j.outcomes e) e) := by
  rw [arena_get?, registry_get?_iff.mp h]
  rfl

theorem arena_get?_idOf {e : Entity} (he : e ∈ j.entities) :
    j.codeGraph.arena.get? (j.idOf e) = some (j.nodeOf j.idOf (holdings j.outcomes e) e) :=
  arena_get?_of_registry (registry_idOf he)

/-- The node of a function that is visited lists its parameters, its body and its blocks. -/
theorem function_node {site : Nat} {d : DeclId} {params : List DeclId} {body : StmtId}
    (hVisits : j.Visits site d params body) :
    ∃ n, j.codeGraph.arena.get? (j.idOf (.function site d)) = some (.function n) ∧
      n.args = params.map (j.idOf <| .decl ·) ∧ n.entry = j.idOf (.stmt body) ∧
      n.blocks = (List.range (j.blocks d).length).map (j.idOf <| .block d ·) := by
  obtain ⟨decl, hDecl, hDef⟩ := Option.bind_eq_some_iff.mp hVisits.2
  refine ⟨_, arena_get?_idOf (Starts.function hVisits).mem_entities, ?_, ?_, rfl⟩
  · simp [hDecl, hDef]
  · simp [hDecl, hDef]

theorem exists_entity {id : NodeId} {n : Node} (h : j.codeGraph.arena.get? id = some n) :
    ∃ e, j.registry.get? e = some id ∧ n = j.nodeOf j.idOf (holdings j.outcomes e) e := by
  rw [arena_get?, Option.map_eq_some_iff] at h
  obtain ⟨e, he, rfl⟩ := h
  exact ⟨e, registry_get?_iff.mpr he, rfl⟩

/-- Whether an entity is to hold a stream position when the extraction is over. -/
def awarded (j : Job) (e : Entity) (i : Nat) : Bool := j.unit.awarded (marks j.events) e i

theorem claims_of_awarded {e : Entity} {i : Nat} (h : j.awarded e i = true) :
    j.Claims e ∧ j.unit.takes (.claim e) i = true :=
  (SourceUnit.claim_of_awarded h).imp claim_mem_marks_iff.mp id

theorem holdings_outcomes (j : Job) (e : Entity) :
    holdings j.outcomes e = j.unit.ledger.tokens.filter (j.awarded e ·.index) := by
  refine SourceUnit.holdings_eq_filter ?_
  cases he : e.access with
  | exclusive => exact Or.inl rfl
  | shared => exact Or.inr (count_claim_le_one he)

theorem tokens_nodeOf (idOf : Entity → NodeId) (tokens : List Token) (e : Entity) :
    (j.nodeOf idOf tokens e).tokens = tokens ∨ ∃ f i, e = .block f i := by
  cases e with
  | block f i => exact Or.inr ⟨f, i, rfl⟩
  | _ => exact Or.inl rfl

/-- The tokens of a node are those awarded to its entity, in stream order. -/
theorem tokensOf_eq {e : Entity} {id : NodeId} (h : j.registry.get? e = some id) :
    j.codeGraph.arena.tokensOf id = j.unit.ledger.tokens.filter (j.awarded e ·.index) := by
  rw [Arena.tokensOf, arena_get?_of_registry h, Option.map_some, Option.getD_some, ← holdings_outcomes]
  obtain hTokens | ⟨f, i, rfl⟩ := j.tokens_nodeOf j.idOf (holdings j.outcomes e) e
  · exact hTokens
  · -- a block claims nothing
    rw [holdings_outcomes]
    refine (List.filter_eq_nil_iff.mpr fun t _ ht => ?_).symm
    cases (claims_of_awarded ht).1 with
    | itself _ hOwn => cases hOwn

theorem mem_tokensOf_iff {e : Entity} {id : NodeId} (h : j.registry.get? e = some id) {t : Token} :
    t ∈ j.codeGraph.arena.tokensOf id ↔ t ∈ j.unit.ledger.tokens ∧ j.awarded e t.index = true := by
  rw [tokensOf_eq h, List.mem_filter]

theorem exists_entity_of_token {id : NodeId} {t : Token} (h : t ∈ j.codeGraph.arena.tokensOf id) :
    ∃ e, j.registry.get? e = some id ∧ t ∈ j.unit.ledger.tokens ∧ j.awarded e t.index = true := by
  cases hn : j.codeGraph.arena.get? id with
  | none => simp [Arena.tokensOf, hn] at h
  | some n =>
      obtain ⟨e, he, _⟩ := exists_entity hn
      exact ⟨e, he, (mem_tokensOf_iff he).mp h⟩

end UnitGraph.Job
