import UnitGraph.Proofs.Extraction.Sequences
import UnitGraph.Proofs.Labelled.Exact

/-!
# Tokens of labelled graphs

Main statement: in the labelled graph with all kinds of edges, a token has one owner and owns nothing, it
shows the text and the position of a lexeme, and no token of a function's sequence is missing unless a
definition lists it.
-/
namespace UnitGraph

section Lists
variable {α β : Type} {l : List α}

/-- Of lists of which only one is not empty, the concatenation is that list. -/
theorem flatMap_eq_of_nodup {f : α → List β} {a : α} (hNodup : l.Nodup) (ha : a ∈ l)
    (h : ∀ b ∈ l, b ≠ a → f b = []) : l.flatMap f = f a := by
  obtain ⟨before, after, rfl⟩ := List.append_of_mem ha
  obtain ⟨-, hAfter, hApart⟩ := List.nodup_append.mp hNodup
  have hBefore : before.flatMap f = [] := by
    refine List.flatMap_eq_nil_iff.mpr fun b hb => h b (List.mem_append_left _ hb) ?_
    exact hApart b hb a List.mem_cons_self
  have hRest : after.flatMap f = [] := by
    refine List.flatMap_eq_nil_iff.mpr fun b hb => h b (by simp [hb]) ?_
    rintro rfl
    exact (List.nodup_cons.mp hAfter).1 hb
  rw [List.flatMap_append, List.flatMap_cons, hBefore, hRest, List.nil_append, List.append_nil]

/-- In stream order, a token is the only one at its position. -/
theorem filter_index_eq {ts : List Token} (hPairwise : ts.Pairwise (·.index < ·.index)) {t : Token}
    (ht : t ∈ ts) : (ts.filter fun s => s.index = t.index) = [t] := by
  obtain ⟨before, after, rfl⟩ := List.append_of_mem ht
  obtain ⟨-, hAfter, hBefore⟩ := List.pairwise_append.mp hPairwise
  have hNone : (before.filter fun s => s.index = t.index) = [] := by
    refine List.filter_eq_nil_iff.mpr fun s hs => ?_
    have := hBefore s hs t List.mem_cons_self
    simp; omega
  have hNoneAfter : (after.filter fun s => s.index = t.index) = [] := by
    refine List.filter_eq_nil_iff.mpr fun s hs => ?_
    have := (List.pairwise_cons.mp hAfter).1 s hs
    simp; omega
  simp [hNone, hNoneAfter]

end Lists

section Owners

theorem Flavor.includes_all (k : EdgeKind) : Flavor.astDataCfgToken.includes k = true := by
  cases k <;> rfl

/-- Every edge leaves a node. -/
theorem Arena.source_of_edgesOf {a : Arena} {x : NodeId} {e : LabelledEdge} (he : e ∈ a.edgesOf x) :
    ∃ y, e.source = .node y := by
  rcases List.mem_append.mp he with he | he
  · obtain ⟨y, _, hSource, _⟩ := Arena.ends_of_linkEdges he
    exact ⟨y, hSource⟩
  · unfold tokenEdges at he
    split at he
    · obtain ⟨t, _, rfl⟩ := List.mem_map.mp he
      exact ⟨x, rfl⟩
    · cases he

/-- The edges of a node that lead to the token at a position are those to its own tokens there. -/
theorem Arena.filter_edgesOf (a : Arena) (x : NodeId) (i : Nat) :
    ((a.edgesOf x).filter fun e => e.target = .token i) =
      if a.ownsTokens (.node x) then
        ((a.tokensOf x).filter fun t => t.index = i).map fun t => ⟨.node x, .token t.index, .token⟩
      else [] := by
  have hLinks : ((a.linkEdges x).filter fun e => e.target = .token i) = [] := by
    refine List.filter_eq_nil_iff.mpr fun e he => ?_
    obtain ⟨y, z, _, hTarget⟩ := Arena.ends_of_linkEdges he
    simp [hTarget]
  rw [edgesOf, List.filter_append, hLinks, List.nil_append, tokenEdges]
  split
  · simp [List.filter_map, Function.comp_def]
  · rfl

variable {j : Job}

/-- Only its owner has an edge to a token, and one. -/
theorem Job.edges_to_token {x : NodeId} {n : Node} {t : Token} (hn : j.codeGraph.arena.get? x = some n)
    (hSyntax : n.isSyntax = true) (ht : t ∈ n.tokens) :
    ((j.codeGraph.labelled .astDataCfgToken).edges.filter fun e => e.target = .token t.index) =
      [⟨.node x, .token t.index, .token⟩] := by
  have hEdges := j.wellFormed_codeGraph.labelled_edges .astDataCfgToken
  simp only [Flavor.includes_all, List.filter_true] at hEdges
  have hPerm := hEdges.filter fun e => e.target = .token t.index
  simp only [List.filter_flatMap, Arena.filter_edgesOf] at hPerm
  have hDefinition : ∀ {m : Node}, m.isSyntax = true → m.isDefinition = false := by
    intro m hm
    cases m <;> first | rfl | cases hm
  have hOthers : ∀ y ∈ j.codeGraph.arena.ids, y ≠ x → (if j.codeGraph.arena.ownsTokens (.node y) then
      ((j.codeGraph.arena.tokensOf y).filter fun s => s.index = t.index).map fun s =>
        (⟨.node y, .token s.index, .token⟩ : LabelledEdge)
      else []) = [] := by
    intro y _ hNe
    split
    · next hOwns =>
        obtain ⟨m, hm, hSyntax'⟩ := Arena.ownsTokens_iff.mp hOwns
        refine List.map_eq_nil_iff.mpr (List.filter_eq_nil_iff.mpr fun s hs hIndex => hNe ?_)
        rw [tokensOf_of_get? hm] at hs
        exact eq_of_common_position hm hn (hDefinition hSyntax') (hDefinition hSyntax) hs ht
          (of_decide_eq_true hIndex)
    · rfl
  rw [flatMap_eq_of_nodup (Arena.ids_nodup _) (Arena.mem_ids_iff.mpr ⟨n, hn⟩) hOthers,
    if_pos (Arena.ownsTokens_iff.mpr ⟨n, hn, hSyntax⟩), tokensOf_of_get? hn,
    filter_index_eq (pairwise_tokens hn) ht] at hPerm
  exact List.perm_singleton.mp hPerm

/-- A token node shows the lexeme at its position. -/
theorem Job.token_node_shows {flavor : Flavor} {n : LabelledNode} {i : Nat}
    (hn : n ∈ (j.codeGraph.labelled flavor).nodes) (hKey : n.key = .token i) :
    ∃ l, j.unit.lexemes[i]? = some l ∧ n.label = l.text ∧ n.order = some i := by
  have h := j.wellFormed_codeGraph
  have hWanted := LabelledGraph.mem_of_foldl_add (h.settled flavor) hn
  rw [List.filterMap_flatMap, (h.flatMap_walk_perm _).mem_iff, List.mem_flatMap] at hWanted
  obtain ⟨x, _, hWanted⟩ := hWanted
  rcases List.mem_append.mp hWanted with hNode | hToken
  · have hMem := List.mem_map_of_mem (f := (·.key)) hNode
    rw [Arena.wantedNodes_node, hKey] at hMem
    simp at hMem
  · obtain ⟨t, ht, hToken⟩ := List.mem_flatMap.mp hToken
    rw [Arena.wantedNodes_token] at hToken
    split at hToken
    · cases List.mem_singleton.mp hToken
      cases hKey
      obtain ⟨_, _, hMem, _⟩ := exists_entity_of_token ht
      obtain ⟨l, hl, hEq⟩ := lexeme_of_mem_ledger hMem
      exact ⟨l, hl, by rw [hEq]; rfl, rfl⟩
    · cases hToken

end Owners

/-- On every unit, for every frontend and all options. -/
theorem Job.labelled_tokens (j : Job) :
    (∀ n ∈ (j.codeGraph.labelled .astDataCfgToken).nodes, ∀ i, n.key = .token i →
      (∃ x m, j.codeGraph.arena.get? x = some m ∧ m.isSyntax = true ∧
        ((j.codeGraph.labelled .astDataCfgToken).edges.filter fun e => e.target = n.key) =
          [⟨.node x, n.key, .token⟩]) ∧
      (∀ e ∈ (j.codeGraph.labelled .astDataCfgToken).edges, e.source ≠ n.key) ∧
      ∃ l, j.unit.lexemes[i]? = some l ∧ n.label = l.text ∧ n.order = some i) ∧
    ∀ q ∈ j.unit.sequences.functions, ∀ t ∈ q.tokens,
      (∀ x m, j.codeGraph.arena.get? x = some m → m.isDefinition = true → t ∉ m.tokens) →
      ∃ n ∈ (j.codeGraph.labelled .astDataCfgToken).nodes, n.key = .token t.index := by
  have h := j.wellFormed_codeGraph
  constructor
  · intro n hn i hKey
    have hDrawn := (h.labelled_keys .astDataCfgToken (.token i)).mp ⟨n, hn, hKey⟩
    cases hDrawn with
    | @token x m t _ hm hSyntax ht =>
        rw [hKey]
        refine ⟨⟨x, m, hm, hSyntax, edges_to_token hm hSyntax ht⟩, ?_, token_node_shows hn hKey⟩
        intro e he hSource
        rw [(h.labelled_edges .astDataCfgToken).mem_iff, List.mem_filter, List.mem_flatMap] at he
        obtain ⟨⟨y, _, he⟩, _⟩ := he
        obtain ⟨z, hz⟩ := Arena.source_of_edgesOf he
        cases hz.symm.trans hSource
  · intro q hq t ht hNot
    rw [j.functions_sequences] at hq
    obtain ⟨⟨site, d⟩, _, rfl⟩ := List.mem_map.mp hq
    obtain ⟨x, hx⟩ := exists_node_of_sequence ht
    obtain ⟨m, hm, hMem⟩ := Arena.mem_tokensOf_iff.mp hx
    rw [h.labelled_keys]
    refine .token (Flavor.includes_all _) hm ?_ hMem
    cases m with
    | block b => cases hMem
    | record _ | enum _ | typedef _ => exact absurd hMem (hNot x _ hm rfl)
    | _ => rfl

theorem Job.labelled_tokens_cell :
    ∃ n ∈ ((cellJob true).codeGraph.labelled .astDataCfgToken).nodes, n.key = .token 20 ∧ n.label = "p" ∧
      n.order = some 20 ∧ ∃ x, (((cellJob true).codeGraph.labelled .astDataCfgToken).edges.filter fun e =>
        e.target = n.key) = [⟨.node x, n.key, .token⟩] := by
  obtain ⟨hOwners, hSequences⟩ := labelled_tokens (cellJob true)
  have hToken : ∃ q ∈ (cellJob true).unit.sequences.functions, ∃ t ∈ q.tokens, t = ⟨20, "p", "Token", 20⟩ := by
    decide +kernel
  have hDefinitions : ∀ x ∈ (cellJob true).codeGraph.arena.ids, ((cellJob true).codeGraph.arena.get? x).all
      (fun m => !m.isDefinition || decide (⟨20, "p", "Token", 20⟩ ∉ m.tokens)) = true := by
    decide +kernel
  obtain ⟨q, hq, t, ht, rfl⟩ := hToken
  obtain ⟨n, hn, hKey⟩ := hSequences q hq _ ht fun x m hm hDefinition hMem => by
    have hNot := hDefinitions x (Arena.mem_ids_iff.mpr ⟨m, hm⟩)
    simp [hm, hDefinition, hMem] at hNot
  obtain ⟨⟨x, _, _, _, hEdges⟩, _, l, hl, hLabel, hOrder⟩ := hOwners n hn 20 hKey
  have hLexeme : (cellJob true).unit.lexemes[20]? = some ⟨"Token", "p", 20⟩ := rfl
  cases hLexeme.symm.trans hl
  exact ⟨n, hn, hKey, hLabel, hOrder, x, hEdges⟩

end UnitGraph
