import UnitGraph.Proofs.Extraction.Below
import UnitGraph.Proofs.Extraction.Sequences

/-!
# Sequences and graphs agree

Main statement: in a well nested unit, a function's sequence is the stretch of the stream that the function
spans, and the function's node, its arguments and its statements share out the tokens of that stretch.
-/
namespace UnitGraph

namespace Arena

/-- A function node, its arguments, and the statements that lead down from its entry. -/
inductive Part (a : Arena) (f : NodeId) : NodeId → Prop
  | self : Part a f f
  | arg {n : FunctionNode} {id : NodeId} : a.function? f = some n → id ∈ n.args → Part a f id
  | stmt {n : FunctionNode} {s : StmtNode} {id : NodeId} : a.function? f = some n →
      Relation.ReflTransGen (fun x y => y ∈ a.below x) n.entry id → a.stmt? id = some s → Part a f id

end Arena

theorem SourceUnit.tokens_slice {u : SourceUnit} {r : SourceRange} {a b : Nat}
    (ha : u.ledger.slot? r.first = some a) (hb : u.ledger.slot? r.last = some b) {p : Token → Bool}
    (hp : ∀ t ∈ u.ledger.tokens, p t = true ↔ u.Covers r t.index) :
    u.ledger.tokens.filter p = ((u.lexemes.mapIdx Token.ofLexeme).drop a).take (b + 1 - a) := by
  have hStream : u.ledger.tokens = u.lexemes.mapIdx Token.ofLexeme := Ledger.tokens_ofLexemes _
  rw [← hStream, ← Ledger.filter_tokens_between]
  apply List.filter_congr
  intro t ht
  rw [Bool.eq_iff_iff, hp t ht, decide_eq_true_eq]
  constructor
  · intro h
    obtain ⟨a', b', ha', hb', h⟩ := h
    cases ha.symm.trans ha'
    cases hb.symm.trans hb'
    exact h
  · intro h
    exact ⟨a, b, ha, hb, h⟩

namespace Job

variable {j : Job} {site : Nat} {d : DeclId} {params : List DeclId} {body : StmtId} {f : Decl}

/-- In the sequences, a function's claim is the first to take each position of the function. -/
theorem WellNested.awarded_sequenceMarks_iff (h : j.WellNested) (hVisits : j.Visits site d params body)
    (hf : j.unit.decl? d = some f) {i : Nat} :
    j.unit.awarded j.unit.sequenceMarks (.function site d) i = true ↔ j.unit.Covers f.range i := by
  have hRange : (Entity.function site d).range? j.unit = some f.range := by simp [Entity.range?, hf]
  constructor
  · intro hAward
    obtain ⟨r, hr, hCovers⟩ := SourceUnit.takes_claim_iff.mp (SourceUnit.claim_of_awarded hAward).2
    cases hRange.symm.trans hr
    exact hCovers
  · intro hi
    have hMem : .claim (.function site d) ∈ j.unit.sequenceMarks :=
      SourceUnit.mem_sequenceMarks.mpr ⟨site, d, hVisits.1, Or.inl ⟨by rw [hVisits.2]; rfl, rfl⟩⟩
    obtain ⟨m, hFirst⟩ := SourceUnit.exists_firstTaker? hMem
      (SourceUnit.takes_claim_iff.mpr ⟨f.range, hRange, hi⟩)
    have hTakes := SourceUnit.takes_of_firstTaker? hFirst
    obtain ⟨site', d', hd', ⟨hDef', rfl⟩ | ⟨hSkip, rfl⟩⟩ :=
      SourceUnit.mem_sequenceMarks.mp (SourceUnit.mem_of_firstTaker? hFirst)
    · obtain ⟨⟨params', body'⟩, hDef'⟩ := Option.isSome_iff_exists.mp hDef'
      obtain ⟨f', hf', _⟩ := Option.bind_eq_some_iff.mp hDef'
      obtain ⟨r, hr, hi'⟩ := SourceUnit.takes_claim_iff.mp hTakes
      simp only [Entity.range?, hf', Option.map_some, Option.some.injEq] at hr
      subst hr
      obtain ⟨rfl, rfl, -⟩ := h.visits_unique hVisits hf ⟨hd', hDef'⟩ hf' hi hi'
      exact decide_eq_true hFirst
    · exact absurd hTakes (h.not_takes_skip hVisits hf hi hd' hSkip)

theorem function?_of_visits (hVisits : j.Visits site d params body) :
    ∃ n, j.codeGraph.arena.function? (j.idOf (.function site d)) = some n ∧
      n.args = params.map (j.idOf <| .decl ·) ∧ n.entry = j.idOf (.stmt body) := by
  obtain ⟨n, hn, hArgs, hEntry, -⟩ := function_node hVisits
  exact ⟨n, by rw [Arena.function?, hn]; rfl, hArgs, hEntry⟩

/-- The parts of a function's node are the nodes of its inner entities. -/
theorem part_iff (hVisits : j.Visits site d params body) {id : NodeId} :
    j.codeGraph.arena.Part (j.idOf (.function site d)) id ↔
      ∃ e, j.Inner site d params body e ∧ j.idOf e = id := by
  obtain ⟨n, hn, hArgs, hEntry⟩ := function?_of_visits hVisits
  have hBody : .stmt body ∈ j.entities := (Starts.body hVisits).mem_entities
  constructor
  · intro h
    cases h with
    | self => exact ⟨_, .function, rfl⟩
    | @arg n' _ hn' hId =>
        cases hn.symm.trans hn'
        rw [hArgs] at hId
        obtain ⟨p, hp, rfl⟩ := List.mem_map.mp hId
        exact ⟨_, .param hp, rfl⟩
    | @stmt n' s' _ hn' hReach hs' =>
        cases hn.symm.trans hn'
        rw [hEntry] at hReach
        obtain ⟨s, hReach, hs⟩ := (reached_stmt_iff hBody).mp ⟨hReach, Option.isSome_of_eq_some hs'⟩
        exact ⟨_, .stmt hReach, idOf_of_registry hs⟩
  · intro h
    obtain ⟨e, he, rfl⟩ := h
    cases he with
    | function => exact .self
    | @param p hp => exact .arg hn (hArgs ▸ List.mem_map.mpr ⟨p, hp, rfl⟩)
    | @stmt s hReach =>
        have hNode := registry_idOf (Inner.mem_entities hVisits (.stmt hReach))
        obtain ⟨hReached, hStmt⟩ := (reached_stmt_iff hBody).mpr ⟨s, hReach, hNode⟩
        obtain ⟨m, hm⟩ := Option.isSome_iff_exists.mp hStmt
        rw [← hEntry] at hReached
        exact .stmt hn hReached hm

theorem WellNested.mem_sequenceAt_iff (h : j.WellNested) (hVisits : j.Visits site d params body)
    (hf : j.unit.decl? d = some f) {t : Token} : t ∈ (j.unit.sequenceAt site d).tokens ↔
      t ∈ j.unit.ledger.tokens ∧ j.unit.Covers f.range t.index := by
  rw [SourceUnit.sequenceAt, List.mem_filter, h.awarded_sequenceMarks_iff hVisits hf]

/-- The tokens of the inner entities of a function are those of its sequence. -/
theorem WellNested.mem_sequenceAt_iff_inner (h : j.WellNested) (hFlow : j.options.flowBlocks = false)
    (hVisits : j.Visits site d params body) (hf : j.unit.decl? d = some f) {t : Token} :
    t ∈ (j.unit.sequenceAt site d).tokens ↔ ∃ e, j.Inner site d params body e ∧
      t ∈ j.unit.ledger.tokens ∧ j.awarded e t.index = true := by
  rw [h.mem_sequenceAt_iff hVisits hf]
  constructor
  · intro ht
    obtain ⟨hMem, hCovers⟩ := ht
    obtain ⟨e, he, hAward⟩ := h.exists_inner_awarded hFlow hVisits hf hCovers
    exact ⟨e, he, hMem, hAward⟩
  · intro ht
    obtain ⟨e, he, hMem, hAward⟩ := ht
    obtain ⟨r, hr, hCovers⟩ := SourceUnit.takes_claim_iff.mp (claims_of_awarded hAward).2
    exact ⟨hMem, h.within_of_inner hVisits hf he hr hCovers⟩

/-- A part of a function's node holds a token if the token is awarded to the inner entity it stands for. -/
theorem part_and_mem_iff (hVisits : j.Visits site d params body) {id : NodeId} {t : Token} :
    j.codeGraph.arena.Part (j.idOf (.function site d)) id ∧ t ∈ j.codeGraph.arena.tokensOf id ↔
      ∃ e, j.Inner site d params body e ∧ j.idOf e = id ∧
        t ∈ j.unit.ledger.tokens ∧ j.awarded e t.index = true := by
  rw [part_iff hVisits]
  constructor
  · intro h
    obtain ⟨⟨e, he, rfl⟩, ht⟩ := h
    have hNode := registry_idOf (he.mem_entities hVisits)
    exact ⟨e, he, rfl, (mem_tokensOf_iff hNode).mp ht⟩
  · intro h
    obtain ⟨e, he, rfl, ht⟩ := h
    have hNode := registry_idOf (he.mem_entities hVisits)
    exact ⟨⟨e, he, rfl⟩, (mem_tokensOf_iff hNode).mpr ht⟩

theorem sequences_agree (j : Job) (h : j.WellNested) (hFlow : j.options.flowBlocks = false) :
    j.unit.sequences.functions.length = j.codeGraph.functions.length ∧
    ∀ (i : Nat) (f : NodeId) (q : FunctionSequence),
      j.codeGraph.functions[i]? = some f → j.unit.sequences.functions[i]? = some q →
      (∀ t, t ∈ q.tokens ↔
        ∃ id, j.codeGraph.arena.Part f id ∧ t ∈ j.codeGraph.arena.tokensOf id) ∧
      (∀ t ∈ q.tokens, ∃! id, j.codeGraph.arena.Part f id ∧ t ∈ j.codeGraph.arena.tokensOf id) ∧
      ∃ site d decl a b, j.topFunctions[i]? = some (site, d) ∧ j.unit.decl? d = some decl ∧
        j.unit.ledger.slot? decl.range.first = some a ∧ j.unit.ledger.slot? decl.range.last = some b ∧
        a ≤ b ∧ q.tokens = ((j.unit.lexemes.mapIdx Token.ofLexeme).drop a).take (b + 1 - a) := by
  have hFunctions : j.codeGraph.functions = j.topFunctions.map fun f => j.idOf (.function f.1 f.2) := rfl
  rw [hFunctions, j.functions_sequences]
  refine ⟨by rw [List.length_map, List.length_map], ?_⟩
  intro i f q hf hq
  rw [List.getElem?_map, Option.map_eq_some_iff] at hf hq
  obtain ⟨⟨site, d⟩, hTop, rfl⟩ := hf
  obtain ⟨⟨site', d'⟩, hTop', rfl⟩ := hq
  cases hTop.symm.trans hTop'
  obtain ⟨params, body, hVisits⟩ := mem_topFunctions_iff.mp (List.mem_of_getElem? hTop)
  obtain ⟨decl, hDecl, _⟩ := Option.bind_eq_some_iff.mp hVisits.2
  obtain ⟨a, b, ha, hb, hab⟩ := h.resolvable site decl (hVisits.functionAt hDecl)
  refine ⟨?_, ?_, site, d, decl, a, b, hTop, hDecl, ha, hb, hab, ?_⟩
  · intro t
    simp only [part_and_mem_iff hVisits]
    rw [h.mem_sequenceAt_iff_inner hFlow hVisits hDecl]
    constructor
    · intro ht
      obtain ⟨e, he, ht⟩ := ht
      exact ⟨j.idOf e, e, he, rfl, ht⟩
    · intro ht
      obtain ⟨_, e, he, _, ht⟩ := ht
      exact ⟨e, he, ht⟩
  · intro t ht
    simp only [part_and_mem_iff hVisits]
    obtain ⟨e, he, hAward⟩ := (h.mem_sequenceAt_iff_inner hFlow hVisits hDecl).mp ht
    refine ⟨j.idOf e, ⟨e, he, rfl, hAward⟩, ?_⟩
    intro id hId
    obtain ⟨e', he', rfl, hAward'⟩ := hId
    rw [SourceUnit.eq_of_awarded he'.access he.access hAward'.2 hAward.2]
  · exact SourceUnit.tokens_slice ha hb fun t _ => h.awarded_sequenceMarks_iff hVisits hDecl

theorem sequences_agree_cell : (cellJob false).WellNested ∧
    ∃ q, (cellJob false).unit.sequences.functions[0]? = some q ∧
      ∀ t ∈ q.tokens, ∃! id, (cellJob false).codeGraph.arena.Part ⟨5⟩ id ∧
        t ∈ (cellJob false).codeGraph.arena.tokensOf id := by
  have hFunction : (cellJob false).codeGraph.functions[0]? = some ⟨5⟩ := by decide +kernel
  obtain ⟨hLength, hTokens⟩ := sequences_agree (cellJob false) cellJob_wellNested rfl
  have hLt : 0 < (cellJob false).unit.sequences.functions.length := by
    rw [hLength]
    decide +kernel
  refine ⟨cellJob_wellNested, _, List.getElem?_eq_getElem hLt, ?_⟩
  exact (hTokens 0 _ _ hFunction (List.getElem?_eq_getElem hLt)).2.1

end Job

end UnitGraph
