import UnitGraph.Proofs.Assembly.History
import UnitGraph.Proofs.Extraction.Agreement
import UnitGraph.Proofs.Extraction.Exclusivity

/-!
# Definitions are complete

A record, an enumeration or a typedef claims once, when it is visited first, and shares what it claims. It holds
nothing before that moment and all tokens in the slots of its declaration's range from then on, whoever took
some of them before and however often it is visited again. Main statement: at every moment of an extraction,
and in the nodes of its code graph.
-/
namespace UnitGraph

/-- The entity is the definition of a type by a declaration. -/
inductive Entity.Defines : Entity → DeclId → Prop
  | record (d : DeclId) : Defines (.record d) d
  | enum (d : DeclId) : Defines (.enum d) d
  | typedef (d : DeclId) : Defines (.typedef d) d

namespace Entity.Defines

variable {e : Entity} {d : DeclId}

theorem access (h : e.Defines d) : e.access = .shared := by cases h <;> rfl

theorem range? (h : e.Defines d) (u : SourceUnit) : e.range? u = (u.decl? d).map (·.range) := by cases h <;> rfl

theorem claimsItself (h : e.Defines d) (j : Job) : j.claimsItself e = true := by cases h <;> rfl

end Entity.Defines

namespace SourceUnit

/-- The stream from the slot of a range's first location to that of its last; empty if one of the two has no
slot or the last slot comes before the first. -/
def stretch (u : SourceUnit) (r : SourceRange) : List Token :=
  match u.ledger.slot? r.first, u.ledger.slot? r.last with
  | some a, some b => ((u.lexemes.mapIdx Token.ofLexeme).drop a).take (b + 1 - a)
  | _, _ => []

/-- All tokens in the slots of a declaration's range. -/
def declTokens (u : SourceUnit) (d : DeclId) : List Token :=
  ((u.decl? d).map fun decl => u.stretch decl.range).getD []

variable {u : SourceUnit}

theorem filter_covers {r : SourceRange} {p : Token → Bool}
    (hp : ∀ t ∈ u.ledger.tokens, p t = true ↔ u.Covers r t.index) :
    u.ledger.tokens.filter p = u.stretch r := by
  by_cases hSlots : ∃ a b, u.ledger.slot? r.first = some a ∧ u.ledger.slot? r.last = some b
  · obtain ⟨a, b, ha, hb⟩ := hSlots
    simp only [stretch, ha, hb]
    exact tokens_slice ha hb hp
  · have hEmpty : u.stretch r = [] := by
      unfold stretch
      split
      · next a b ha hb => exact absurd ⟨a, b, ha, hb⟩ hSlots
      · rfl
    rw [hEmpty, List.filter_eq_nil_iff]
    intro t ht h
    obtain ⟨a, b, ha, hb, -⟩ := (hp t ht).mp h
    exact hSlots ⟨a, b, ha, hb⟩

/-- What the claim of a definition takes are the tokens of its declaration. -/
theorem filter_takes {e : Entity} {d : DeclId} (h : e.Defines d) :
    u.ledger.tokens.filter (u.takes (.claim e) ·.index) = u.declTokens d := by
  rw [declTokens]
  cases hd : u.decl? d with
  | none =>
      rw [Option.map_none, Option.getD_none, List.filter_eq_nil_iff]
      intro t _ hTakes
      obtain ⟨r, hr, -⟩ := takes_claim_iff.mp hTakes
      rw [h.range?, hd] at hr
      cases hr
  | some decl =>
      refine filter_covers fun t _ => ?_
      rw [takes_claim_iff, h.range?, hd]
      simp

end SourceUnit

namespace Job

open Traversal

variable {j : Job} {e : Entity} {d : DeclId} {h : History}

theorem held_of_defines (he : e.Defines d) (hr : j.Reached h) :
    j.held h e = if .claim e ∈ marks h then j.unit.declTokens d else [] := by
  have hOnce : (marks h).count (.claim e) ≤ 1 :=
    Nat.le_trans ((hr.filterMap _).sublist.count_le _) (count_claim_le_one he.access)
  rw [held, SourceUnit.holdings_shared rfl he.access hOnce]
  split
  · next hm => simp only [hm, true_and, Bool.decide_eq_true, SourceUnit.filter_takes he]
  · next hm => simp [hm]

/-- A definition claims as soon as it is visited. -/
theorem claim_mem_marks_of_visit (he : e.Defines d) (hMem : e ∈ j.entities) (hs : e ∉ entered h) :
    .claim e ∈ marks (j.after h [.visit e]) := by
  rw [after_visit (mem_pool_of_mem_entities hMem) hs]
  exact mem_marks_after (requested_agenda_pool hMem) (by simp [itemMarks_agenda, he.claimsItself])

theorem exists_defines {id : NodeId} {n : Node} (hn : j.codeGraph.arena.get? id = some n)
    (hDefinition : n.isDefinition = true) : ∃ e d, j.registry.get? e = some id ∧ e.Defines d := by
  obtain ⟨e, he, rfl⟩ := exists_entity hn
  cases e with
  | record d => exact ⟨_, d, he, .record d⟩
  | enum d => exact ⟨_, d, he, .enum d⟩
  | typedef d => exact ⟨_, d, he, .typedef d⟩
  | _ => cases hDefinition

/-- For every job: in the code graph a definition has all tokens of its declaration; during the extraction it has
none of them before its claim and all of them afterwards, and its first visit leaves its claim. -/
theorem definitions_complete (j : Job) :
    (∀ id n, j.codeGraph.arena.get? id = some n → n.isDefinition = true →
      ∃ e d, j.registry.get? e = some id ∧ e.Defines d ∧ n.tokens = j.unit.declTokens d) ∧
    ∀ e d, e.Defines d →
      (∀ h, j.Reached h → j.held h e = if .claim e ∈ marks h then j.unit.declTokens d else []) ∧
      ∀ h, e ∈ j.entities → e ∉ entered h → .claim e ∈ marks (j.after h [.visit e]) := by
  refine ⟨?_, fun e d he => ⟨fun h hr => held_of_defines he hr, fun h => claim_mem_marks_of_visit he⟩⟩
  intro id n hn hDefinition
  obtain ⟨e, d, hNode, he⟩ := exists_defines hn hDefinition
  have hClaim : .claim e ∈ marks j.events :=
    claim_mem_marks_iff.mpr (.itself (mem_entities_of_registry hNode) (he.claimsItself j))
  have hEnd : j.held j.events e = j.unit.declTokens d := by
    rw [held_of_defines he List.prefix_rfl, if_pos hClaim]
  refine ⟨e, d, hNode, he, ?_⟩
  rw [← tokensOf_of_get? hn, tokensOf_eq hNode, ← holdings_outcomes]
  exact hEnd

end Job

end UnitGraph
