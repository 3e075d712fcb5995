import UnitGraph.Proofs.Extraction.Nodes

/-!
# Tokens belong to one node

Main statement: over a whole extraction, on every unit, no token is held by two nodes unless one of them is
a definition; every node lists its tokens in stream order, as the stream has them, and only tokens between
the slots of its own range.
-/
namespace UnitGraph

/-- Records, enumerations and typedefs: their tokens are those of a definition. -/
def Node.isDefinition : Node → Bool
  | .record _ | .enum _ | .typedef _ => true
  | .decl _ | .stmt _ | .block _ | .function _ => false

namespace Job

variable {j : Job}

theorem access_of_not_isDefinition {idOf : Entity → NodeId} {tokens : List Token} {e : Entity}
    (h : (j.nodeOf idOf tokens e).isDefinition = false) : e.access = .exclusive := by
  cases e with
  | record d => cases h
  | enum d => cases h
  | typedef d => cases h
  | _ => rfl

theorem tokensOf_of_get? {id : NodeId} {n : Node} (h : j.codeGraph.arena.get? id = some n) :
    j.codeGraph.arena.tokensOf id = n.tokens := by rw [Arena.tokensOf, h]; rfl

theorem lexeme_of_mem_ledger {u : SourceUnit} {t : Token} (h : t ∈ u.ledger.tokens) :
    ∃ x, u.lexemes[t.index]? = some x ∧ t = Token.ofLexeme t.index x := by
  have hAt := Ledger.getElem?_tokens_index h
  rw [SourceUnit.ledger, Ledger.tokens_ofLexemes, List.getElem?_mapIdx, Option.map_eq_some_iff] at hAt
  obtain ⟨x, hx, ht⟩ := hAt
  exact ⟨x, hx, ht.symm⟩

/-- Two nodes that are no definitions and list tokens of one position are the same node. -/
theorem eq_of_common_position {x y : NodeId} {m n : Node} (hm : j.codeGraph.arena.get? x = some m)
    (hn : j.codeGraph.arena.get? y = some n) (hDefinition : m.isDefinition = false)
    (hDefinition' : n.isDefinition = false) {s t : Token} (hs : s ∈ m.tokens) (ht : t ∈ n.tokens)
    (hIndex : s.index = t.index) : x = y := by
  obtain ⟨e, he, rfl⟩ := exists_entity hm
  obtain ⟨e', he', rfl⟩ := exists_entity hn
  rw [← tokensOf_of_get? hm] at hs
  rw [← tokensOf_of_get? hn] at ht
  have hAward := ((mem_tokensOf_iff he).mp hs).2
  have hAward' := ((mem_tokensOf_iff he').mp ht).2
  rw [hIndex] at hAward
  have hEq : e = e' := SourceUnit.eq_of_awarded (access_of_not_isDefinition hDefinition)
    (access_of_not_isDefinition hDefinition') hAward hAward'
  subst hEq
  exact Option.some.inj (he.symm.trans he')

theorem pairwise_tokens {x : NodeId} {n : Node} (hn : j.codeGraph.arena.get? x = some n) :
    n.tokens.Pairwise (·.index < ·.index) := by
  obtain ⟨e, he, _⟩ := exists_entity hn
  rw [← tokensOf_of_get? hn, tokensOf_eq he]
  exact j.unit.ledger.pairwise_tokens.filter _

theorem tokens_of_node_exclusive (j : Job) :
    (∀ a b na nb, a ≠ b → j.codeGraph.arena.get? a = some na → j.codeGraph.arena.get? b = some nb →
      na.isDefinition = false → nb.isDefinition = false →
      ∀ s ∈ na.tokens, ∀ t ∈ nb.tokens, s.index ≠ t.index) ∧
    ∀ id n, j.codeGraph.arena.get? id = some n →
      n.tokens.Pairwise (·.index < ·.index) ∧
      ∀ t ∈ n.tokens,
        (∃ x, j.unit.lexemes[t.index]? = some x ∧ t = Token.ofLexeme t.index x) ∧
        ∃ e r, j.registry.get? e = some id ∧ e.range? j.unit = some r ∧ j.unit.Covers r t.index := by
  constructor
  · intro a b na nb hab hna hnb hda hdb s hs t ht hst
    exact hab (eq_of_common_position hna hnb hda hdb hs ht hst)
  · intro id n hn
    constructor
    · exact pairwise_tokens hn
    · intro t ht
      obtain ⟨e, he, _⟩ := exists_entity hn
      rw [← tokensOf_of_get? hn] at ht
      obtain ⟨hMem, hAward⟩ := (mem_tokensOf_iff he).mp ht
      obtain ⟨r, hr, hCovers⟩ := SourceUnit.takes_claim_iff.mp (claims_of_awarded hAward).2
      exact ⟨lexeme_of_mem_ledger hMem, e, r, he, hr, hCovers⟩

end Job

end UnitGraph
