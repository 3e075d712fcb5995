import UnitGraph.Proofs.Extraction.Below
import UnitGraph.Proofs.Extraction.Links
import UnitGraph.Proofs.Graph.Statistics
import UnitGraph.Proofs.Traversal.Siblings

/-!
# Document order of statement trees

Where every statement has one place and every declaration is made by one statement, the nodes of a function's
statements are created in the order in which the subtree of its entry lists them. Main statement: that subtree
lists no node twice, its statements by increasing identity, and the tokens of its nodes spell the stretch that
they own in stream order.
-/
namespace UnitGraph

open Traversal

/-- In a list without repetitions across its parts, an element belongs to one part. -/
theorem eq_of_mem_nodup_flatMap {α β : Type} {xs : List α} {f : α → List β} (h : (xs.flatMap f).Nodup)
    {i k : Nat} {x y : α} {b : β} (hx : xs[i]? = some x) (hy : xs[k]? = some y) (hb : b ∈ f x) (hb' : b ∈ f y) :
    i = k := by
  have hApart := List.pairwise_iff_getElem.mp (List.nodup_flatMap.mp h).2
  obtain ⟨hi, rfl⟩ := List.getElem?_eq_some_iff.mp hx
  obtain ⟨hk, rfl⟩ := List.getElem?_eq_some_iff.mp hy
  rcases Nat.lt_trichotomy i k with hLt | hEq | hLt
  · exact absurd hb' (hApart i k hi hk hLt hb)
  · exact hEq
  · exact absurd hb (hApart k i hk hi hLt hb')

theorem pairwise_of_split {α : Type} {r : α → α → Prop} {xs : List α}
    (h : ∀ before after x y, xs = before ++ y :: after → x ∈ before → r x y) : xs.Pairwise r := by
  refine List.pairwise_iff_getElem.mpr fun i k hi hk hLt => ?_
  refine h (xs.take k) (xs.drop (k + 1)) _ _ ?_ (List.mem_take_iff_getElem.mpr ⟨i, by omega, rfl⟩)
  rw [List.getElem_cons_drop, List.take_append_drop]

namespace SourceUnit

/-- The bodies of the functions of a unit. -/
def bodies (u : SourceUnit) : List StmtId :=
  u.decls.toList.filterMap fun d =>
    match d.kind with
    | .function _ body => body
    | _ => none

/-- No statement occurs twice among the bodies and the children, and no declaration twice among those that
statements make. -/
structure StatementTrees (u : SourceUnit) : Prop where
  stmts : (u.bodies ++ u.stmts.toList.flatMap (·.children)).Nodup
  decls : (u.stmts.toList.flatMap (·.decls)).Nodup

variable {u : SourceUnit} {s t c : StmtId} {p : DeclId} {stmt stmt' : Stmt}

theorem getElem?_stmts (hs : u.stmt? s = some stmt) : u.stmts.toList[s.index]? = some stmt := by
  rw [Array.getElem?_toList]
  exact hs

namespace StatementTrees

variable (h : u.StatementTrees)
include h

theorem parent_unique (hs : u.stmt? s = some stmt) (ht : u.stmt? t = some stmt') (hc : c ∈ stmt.children)
    (hc' : c ∈ stmt'.children) : s = t := by
  have hIndex := eq_of_mem_nodup_flatMap (List.nodup_append.mp h.stmts).2.1 (getElem?_stmts hs)
    (getElem?_stmts ht) hc hc'
  cases s
  cases t
  cases hIndex
  rfl

theorem declarer_unique (hs : u.stmt? s = some stmt) (ht : u.stmt? t = some stmt') (hp : p ∈ stmt.decls)
    (hp' : p ∈ stmt'.decls) : s = t := by
  have hIndex := eq_of_mem_nodup_flatMap h.decls (getElem?_stmts hs) (getElem?_stmts ht) hp hp'
  cases s
  cases t
  cases hIndex
  rfl

theorem nodup_children (hs : u.stmt? s = some stmt) : stmt.children.Nodup :=
  (List.nodup_flatMap.mp (List.nodup_append.mp h.stmts).2.1).1 stmt (List.mem_of_getElem? (getElem?_stmts hs))

theorem nodup_decls (hs : u.stmt? s = some stmt) : stmt.decls.Nodup :=
  (List.nodup_flatMap.mp h.decls).1 stmt (List.mem_of_getElem? (getElem?_stmts hs))

theorem not_child_of_body {d : DeclId} {params : List DeclId} {body : StmtId}
    (hDef : u.definition? d = some (params, body)) : ¬ u.Child s body := by
  intro hChild
  obtain ⟨stmt, hs, hMem⟩ := hChild
  obtain ⟨decl, hd, hKind⟩ := Option.map_eq_some_iff.mp (Job.declKind?_of_definition? hDef)
  have hBody : body ∈ u.bodies :=
    List.mem_filterMap.mpr ⟨decl, Array.mem_toList_iff.mpr (Array.mem_of_getElem? hd), by rw [hKind]⟩
  have hChild : body ∈ u.stmts.toList.flatMap (·.children) :=
    List.mem_flatMap.mpr ⟨stmt, List.mem_of_getElem? (getElem?_stmts hs), hMem⟩
  exact (List.nodup_append.mp h.stmts).2.2 body hBody body hChild rfl

end StatementTrees

end SourceUnit

namespace Job

variable {j : Job} {s t c : StmtId} {p : DeclId} {stmt : Stmt} {e e' : Entity} {x y : NodeId}

theorem index_idOf (he : e ∈ j.entities) : (j.idOf e).index = j.entities.idxOf e := by
  obtain ⟨hLt, hAt⟩ := List.getElem?_eq_some_iff.mp (registry_get?_iff.mp (registry_idOf he))
  have hPlace := j.entities_nodup.idxOf_getElem _ hLt
  rw [hAt] at hPlace
  exact hPlace.symm

/-- Nodes are numbered in the order in which their entities are met. -/
theorem idOf_lt_iff (he : e ∈ j.entities) (he' : e' ∈ j.entities) :
    (j.idOf e).index < (j.idOf e').index ↔ Precedes j.entities e e' := by
  rw [index_idOf he, index_idOf he', Precedes]

section Order

variable (hFlow : j.options.flowBlocks = false) (hTrees : j.unit.StatementTrees)
include hFlow hTrees

theorem onlyAsks_child (hs : j.unit.stmt? s = some stmt) (hc : c ∈ stmt.children) :
    OnlyAsks j.agenda j.program (.stmt s) (.stmt c) where
  items := by
    intro hStart
    cases mem_requested_program.mp hStart with
    | body hVisits => exact hTrees.not_child_of_body hVisits.2 ⟨stmt, hs, hc⟩
  agendas := by
    intro e he
    cases mem_requested_agenda.mp he with
    | child hs' hc' => rw [hTrees.parent_unique hs' hs hc' hc]
    | blockStmt hb _ => simp [block?, blocks, hFlow] at hb

theorem precedes_child (hs : .stmt s ∈ j.entities) (hChild : j.unit.Child s c) :
    Precedes j.entities (.stmt s) (.stmt c) := by
  obtain ⟨stmt, hStmt, hc⟩ := hChild
  exact (onlyAsks_child hFlow hTrees hStmt hc).precedes j.closed_pool requested_program_pool
    ((Asks.child hStmt hc).mem_entities hs)

/-- What is met before a statement is met before everything below it. -/
theorem precedes_below (hs : .stmt s ∈ j.entities) (hBefore : Precedes j.entities e (.stmt s))
    (h : Relation.ReflTransGen j.unit.Child s t) : Precedes j.entities e (.stmt t) := by
  induction h with
  | refl => exact hBefore
  | tail hReach hChild ih =>
      exact ih.trans (precedes_child hFlow hTrees (stmt_mem_entities_of_child hs hReach) hChild)

/-- Everything below a child is met before the next child. -/
theorem precedes_of_sibling (hs : .stmt s ∈ j.entities) (hStmt : j.unit.stmt? s = some stmt)
    {before after : List StmtId} {c' : StmtId} (hChildren : stmt.children = before ++ c' :: after) (hc : c ∈ before)
    (h : Relation.ReflTransGen j.unit.Child c t) : Precedes j.entities (.stmt t) (.stmt c') := by
  have hMem : ∀ y ∈ before, y ∈ stmt.children := by
    intro y hy
    rw [hChildren]
    exact List.mem_append_left _ hy
  have hFirst := precedes_child hFlow hTrees hs ⟨stmt, hStmt, hMem c hc⟩
  have hOnly := onlyAsks_child hFlow hTrees hStmt (c := c') (by simp [hChildren])
  have hNot : c' ∉ before := by
    have hNodup := hTrees.nodup_children hStmt
    rw [hChildren] at hNodup
    exact fun hBefore => (List.nodup_append.mp hNodup).2.2 c' hBefore c' List.mem_cons_self rfl
  have hAgenda : j.agenda (.stmt s) = before.map (.visit <| .stmt ·) ++ ((c' :: after).map (.visit <| .stmt ·) ++
      stmt.decls.map (.visit <| .decl ·) ++ stmt.referenced.toList.map (.visit <| .decl ·) ++
        [.mark (.claim (.stmt s))]) := by
    simp [agenda, hStmt, hChildren]
  refine hOnly.precedes_of_earlier j.closed_pool requested_program_pool hs hAgenda ?_ ?_ hFirst ?_
  · simpa using hNot
  · simpa using hc
  · induction h with
    | refl => exact .refl
    | tail hReach hChild ih =>
        have hc := (Asks.child hStmt (hMem c hc)).mem_entities hs
        have hAfter := precedes_below hFlow hTrees hc hFirst (hReach.tail hChild)
        obtain ⟨stmt', hStmt', hMem'⟩ := hChild
        exact ih.tail ⟨mem_requested_agenda.mpr (.child hStmt' hMem'), hAfter⟩

end Order

theorem Belongs.unique (hTrees : j.unit.StatementTrees) (hs : .stmt s ∈ j.entities) (ht : .stmt t ∈ j.entities)
    (h : j.Belongs s x) (h' : j.Belongs t x) : s = t := by
  rcases h with rfl | ⟨stmt, p, hStmt, hp, rfl⟩
  · rcases h' with hEq | ⟨stmt', p', hStmt', hp', hEq⟩
    · cases idOf_inj hs ht hEq
      rfl
    · cases idOf_inj hs (decl_mem_entities ht hStmt' hp') hEq
  · rcases h' with hEq | ⟨stmt', p', hStmt', hp', hEq⟩
    · cases idOf_inj (decl_mem_entities hs hStmt hp) ht hEq
    · cases idOf_inj (decl_mem_entities hs hStmt hp) (decl_mem_entities ht hStmt' hp') hEq
      exact hTrees.declarer_unique hStmt hStmt' hp hp'

/-- One node is not another, and comes before it if both are nodes of statements. -/
def Before (j : Job) (x y : NodeId) : Prop := x ≠ y ∧
  ((j.codeGraph.arena.stmt? x).isSome → (j.codeGraph.arena.stmt? y).isSome → x.index < y.index)

theorem Before.of_ne (h : x ≠ y) (hNone : j.codeGraph.arena.stmt? x = none ∨ j.codeGraph.arena.stmt? y = none) :
    j.Before x y := by
  refine ⟨h, fun hx hy => ?_⟩
  rcases hNone with hNone | hNone
  · rw [hNone] at hx
    cases hx
  · rw [hNone] at hy
    cases hy

/-- Statements rank by their nodes, everything else comes behind. -/
def rank (j : Job) (x : NodeId) : Nat :=
  if (j.codeGraph.arena.stmt? x).isSome then x.index else j.codeGraph.arena.size

theorem rank_idOf_stmt (hs : .stmt s ∈ j.entities) : j.rank (j.idOf (.stmt s)) = (j.idOf (.stmt s)).index :=
  if_pos (isSome_stmt?_iff.mpr ⟨s, registry_idOf hs⟩)

/-- What belongs to different statements is ordered as these are. -/
theorem before_of_precedes (hTrees : j.unit.StatementTrees) (hs : .stmt s ∈ j.entities)
    (ht : .stmt t ∈ j.entities) (hx : j.Belongs s x) (hy : j.Belongs t y)
    (h : Precedes j.entities (.stmt s) (.stmt t)) : j.Before x y := by
  constructor
  · rintro rfl
    cases hx.unique hTrees hs ht hy
    exact Nat.lt_irrefl _ h
  · intro hStmt hStmt'
    rw [hx.eq_of_isSome hs hStmt, hy.eq_of_isSome ht hStmt', idOf_lt_iff hs ht]
    exact h

section Subtrees

variable (hFlow : j.options.flowBlocks = false) (hTrees : j.unit.StatementTrees)
include hFlow hTrees

theorem rank_lt_of_below : ∀ x ∈ j.codeGraph.arena.ids, ∀ y ∈ j.codeGraph.arena.below x, j.rank x < j.rank y := by
  intro x hx y hy
  obtain ⟨s, stmt, hs, hStmt, rfl⟩ := exists_stmt_of_below hy
  rw [rank_idOf_stmt hs]
  obtain ⟨stmt, hStmt, ⟨c, hc, rfl⟩ | ⟨p, hp, rfl⟩⟩ := (mem_below_iff (registry_idOf hs)).mp hy
  · have hMem := (Asks.child hStmt hc).mem_entities hs
    rw [rank_idOf_stmt hMem, idOf_lt_iff hs hMem]
    exact precedes_child hFlow hTrees hs ⟨stmt, hStmt, hc⟩
  · have hSize := (List.getElem?_eq_some_iff.mp (registry_get?_iff.mp (registry_idOf hs))).1
    rw [rank, stmt?_idOf_decl (decl_mem_entities hs hStmt hp), size_arena]
    simpa using hSize

theorem before_of_transGen (h : Relation.TransGen j.codeGraph.arena.Below x y) : j.Before x y := by
  have hLt := Arena.rank_lt_of_transGen (rank_lt_of_below hFlow hTrees) h
  refine ⟨fun hEq => Nat.lt_irrefl _ (hEq ▸ hLt), fun hx hy => ?_⟩
  rwa [rank, rank, if_pos hx, if_pos hy] at hLt

/-- Whatever is below one of the nodes below a node comes before whatever is below a later one. -/
theorem pairwise_below (x : NodeId) : (j.codeGraph.arena.below x).Pairwise fun c c' => ∀ y z,
    Relation.ReflTransGen j.codeGraph.arena.Below c y → Relation.ReflTransGen j.codeGraph.arena.Below c' z →
    j.Before y z := by
  cases hBelow : j.codeGraph.arena.below x with
  | nil => exact .nil
  | cons first rest =>
      have hFirst : j.codeGraph.arena.Below x first := by simp [Arena.Below, hBelow]
      obtain ⟨s, stmt, hs, hStmt, rfl⟩ := exists_stmt_of_below hFirst
      have hChild : ∀ c ∈ stmt.children, .stmt c ∈ j.entities := fun c hc => (Asks.child hStmt hc).mem_entities hs
      rw [← hBelow, below_idOf hs hStmt, List.pairwise_append, List.pairwise_map, List.pairwise_map]
      refine ⟨pairwise_of_split ?children, (hTrees.nodup_decls hStmt).imp_of_mem ?decls, ?both⟩
      case children =>
          intro before after c c' hSplit hc y z hy hz
          have hMem : .stmt c ∈ j.entities := hChild c (by simp [hSplit, hc])
          have hMem' : .stmt c' ∈ j.entities := hChild c' (by simp [hSplit])
          obtain ⟨t, ht, hBelongs⟩ := exists_belongs hMem hy
          obtain ⟨t', ht', hBelongs'⟩ := exists_belongs hMem' hz
          have hFirst := precedes_of_sibling hFlow hTrees hs hStmt hSplit hc ht
          exact before_of_precedes hTrees (stmt_mem_entities_of_child hMem ht)
            (stmt_mem_entities_of_child hMem' ht') hBelongs hBelongs' (precedes_below hFlow hTrees hMem' hFirst ht')
      case decls =>
          intro p p' hp hp' hNe y z hy hz
          have hMem := decl_mem_entities hs hStmt hp
          have hMem' := decl_mem_entities hs hStmt hp'
          rw [eq_of_reached_decl hMem hy, eq_of_reached_decl hMem' hz]
          refine .of_ne (fun hEq => ?_) (Or.inl (stmt?_idOf_decl hMem))
          exact hNe (Entity.decl.inj (idOf_inj hMem hMem' hEq))
      case both =>
          intro c hc c' hc' y z hy hz
          obtain ⟨child, hChildren, rfl⟩ := List.mem_map.mp hc
          obtain ⟨p, hp, rfl⟩ := List.mem_map.mp hc'
          have hMem := decl_mem_entities hs hStmt hp
          rw [eq_of_reached_decl hMem hz]
          obtain ⟨t, ht, hBelongs⟩ := exists_belongs (hChild child hChildren) hy
          have hStep := precedes_child hFlow hTrees hs ⟨stmt, hStmt, hChildren⟩
          have hAfter := precedes_below hFlow hTrees (hChild child hChildren) hStep ht
          refine .of_ne (fun hEq => ?_) (Or.inr (stmt?_idOf_decl hMem))
          have hOwn : j.Belongs s y := Or.inr ⟨stmt, p, hStmt, hp, hEq⟩
          have ht := stmt_mem_entities_of_child (hChild child hChildren) ht
          cases hBelongs.unique hTrees ht hs hOwn
          exact Nat.lt_irrefl _ hAfter

theorem acyclicBelow (root : NodeId) : j.codeGraph.arena.AcyclicBelow root :=
  Arena.acyclicBelow_of_rank (rank_lt_of_below hFlow hTrees) root

theorem pairwise_subtree (root : NodeId) : (j.codeGraph.arena.subtree root).Pairwise j.Before :=
  (acyclicBelow hFlow hTrees root).pairwise_subtree (fun _ _ => before_of_transGen hFlow hTrees)
    (pairwise_below hFlow hTrees)

/-- The tokens below an entry are at different positions of the stream. -/
theorem nodup_index_subtreeTokens {site : Nat} {d : DeclId} {params : List DeclId} {body : StmtId}
    (hVisits : j.Visits site d params body) :
    ((j.codeGraph.arena.subtreeTokens (j.idOf (.stmt body))).map (·.index)).Nodup := by
  have hBody : .stmt body ∈ j.entities := (Starts.body hVisits).mem_entities
  have hNode : ∀ x ∈ j.codeGraph.arena.subtree (j.idOf (.stmt body)),
      ∃ m, j.codeGraph.arena.get? x = some m ∧ m.isDefinition = false := by
    intro x hx
    obtain ⟨t, ht, hBelongs⟩ := exists_belongs hBody ((acyclicBelow hFlow hTrees _).mem_subtree_iff.mp hx)
    exact hBelongs.not_isDefinition (stmt_mem_entities_of_child hBody ht)
  unfold List.Nodup
  rw [List.pairwise_map, Arena.subtreeTokens, List.pairwise_flatMap]
  constructor
  · intro x hx
    obtain ⟨m, hm, -⟩ := hNode x hx
    rw [tokensOf_of_get? hm]
    exact (pairwise_tokens hm).imp Nat.ne_of_lt
  · refine (pairwise_subtree hFlow hTrees _).imp_of_mem ?_
    intro x y hx hy hBefore t ht t' ht' hIndex
    obtain ⟨m, hm, hDefinition⟩ := hNode x hx
    obtain ⟨m', hm', hDefinition'⟩ := hNode y hy
    rw [tokensOf_of_get? hm] at ht
    rw [tokensOf_of_get? hm'] at ht'
    exact hBefore.1 (eq_of_common_position hm hm' hDefinition hDefinition' ht ht' hIndex)

end Subtrees

theorem mem_stream_of_mem_subtreeTokens {root : NodeId} {t : Token}
    (h : t ∈ j.codeGraph.arena.subtreeTokens root) : t ∈ j.unit.lexemes.mapIdx Token.ofLexeme := by
  obtain ⟨x, -, ht⟩ := List.mem_flatMap.mp h
  obtain ⟨_, _, hMem, _⟩ := exists_entity_of_token ht
  rwa [← Ledger.tokens_ofLexemes]

/-- For every extraction without flow blocks from a unit of statement trees, and every function node: in the subtree
of its entry no node is listed twice, the statements' nodes are those of the statements below the body and have
increasing identities, and the tokens are different ones and are rendered in the order of the stream, in whatever
order they are given. -/
theorem subtree_in_document_order (j : Job) (hFlow : j.options.flowBlocks = false)
    (hTrees : j.unit.StatementTrees) {id : NodeId} {n : FunctionNode}
    (hn : j.codeGraph.arena.get? id = some (.function n)) :
    j.codeGraph.arena.Unstacks [n.entry] (j.codeGraph.arena.subtree n.entry) ∧
    (j.codeGraph.arena.subtree n.entry).Nodup ∧
    ((j.codeGraph.arena.subtree n.entry).filter fun x => (j.codeGraph.arena.stmt? x).isSome).Pairwise
      (·.index < ·.index) ∧
    (∃ site d params body, j.registry.get? (.function site d) = some id ∧ j.Visits site d params body ∧
      ∀ x, (x ∈ j.codeGraph.arena.subtree n.entry ∧ (j.codeGraph.arena.stmt? x).isSome) ↔
        ∃ s, Relation.ReflTransGen j.unit.Child body s ∧ j.registry.get? (.stmt s) = some x) ∧
    ((j.codeGraph.arena.subtreeTokens n.entry).map (·.index)).Nodup ∧
    ∀ ts : List Token, ts.Perm (j.codeGraph.arena.subtreeTokens n.entry) →
      Token.render ts = String.intercalate " " (((j.unit.lexemes.mapIdx Token.ofLexeme).filter fun t =>
        !t.isPragma && t ∈ j.codeGraph.arena.subtreeTokens n.entry).map (·.name)) := by
  obtain ⟨site, d, params, body, hNode, hVisits, -, hEntry, -⟩ := visits_of_function_node hn
  have hAcyclic := acyclicBelow hFlow hTrees n.entry
  have hBefore := pairwise_subtree hFlow hTrees n.entry
  have hTokens := nodup_index_subtreeTokens hFlow hTrees hVisits
  rw [← hEntry] at hTokens
  refine ⟨hAcyclic.unstacks, hBefore.imp And.left, ?_, ⟨site, d, params, body, hNode, hVisits, fun x => ?_⟩,
    hTokens, fun ts hPerm => ?_⟩
  · rw [List.pairwise_filter]
    exact hBefore.imp fun hxy hx hy => hxy.2 hx hy
  · rw [hAcyclic.mem_subtree_iff, hEntry]
    exact reached_stmt_iff (Starts.body hVisits).mem_entities
  · have hStream : (j.unit.lexemes.mapIdx Token.ofLexeme).Pairwise (·.index < ·.index) := by
      rw [← Ledger.tokens_ofLexemes]
      exact Ledger.pairwise_tokens _
    have hMem : ∀ t ∈ ts, t ∈ j.unit.lexemes.mapIdx Token.ofLexeme :=
      fun t ht => mem_stream_of_mem_subtreeTokens (hPerm.mem_iff.mp ht)
    rw [Token.render_eq_filter hStream hMem ((hPerm.map _).nodup_iff.mpr hTokens)]
    simp only [hPerm.mem_iff, Token.spellings]

end Job

/-- The unit of `int f ( ) { int x ; return x ; }` with a pragma before the return, and with its statements numbered
from the inside out. -/
def localUnit : SourceUnit where
  lexemes := [("raw", "int"), ("raw", "f"), ("raw", "("), ("raw", ")"), ("raw", "\x7b"), ("raw", "int"), ("raw", "x"),
    ("raw", ";"), ("annot_pragma", "once"), ("raw", "return"), ("raw", "x"), ("raw", ";"),
    ("raw", "\x7d")].mapIdx fun i lexeme => ⟨lexeme.1, lexeme.2, i⟩
  decls := #[
    ⟨.function [] (some ⟨3⟩), .identifier "f", 1, ⟨0, 12⟩, some ⟨0⟩⟩,
    ⟨.var, .identifier "x", 6, ⟨5, 6⟩, some ⟨0⟩⟩]
  stmts := #[
    ⟨"DeclRefExpr", ⟨10, 10⟩, [], [], some ⟨1⟩⟩,
    ⟨"ReturnStmt", ⟨9, 11⟩, [⟨0⟩], [], none⟩,
    ⟨"DeclStmt", ⟨5, 7⟩, [], [⟨1⟩], none⟩,
    ⟨"CompoundStmt", ⟨4, 12⟩, [⟨2⟩, ⟨1⟩], [], none⟩]
  types := #[⟨.builtin, "int"⟩]
  topLevel := [⟨0⟩]

def localJob : Job where
  unit := localUnit
  frontend := { parse := fun _ => .ok localUnit, flowGraph := fun _ _ => .ok ⟨[]⟩ }
  options := { flowBlocks := false }

namespace Job

theorem subtree_in_document_order_local : localJob.unit.StatementTrees ∧
    (localJob.codeGraph.arena.function? ⟨5⟩).map (·.entry) = some ⟨0⟩ ∧
    localJob.codeGraph.arena.subtree ⟨0⟩ = [⟨0⟩, ⟨1⟩, ⟨2⟩, ⟨3⟩, ⟨4⟩] ∧
    ((localJob.codeGraph.arena.subtreeTokens ⟨0⟩).map (·.index)).Nodup ∧
    (localJob.codeGraph.arena.subtreeTokens ⟨0⟩).map (·.name) =
      ["\x7b", "once", "\x7d", "int", "x", ";", "return", ";", "x"] ∧
    Token.render (localJob.codeGraph.arena.subtreeTokens ⟨0⟩).reverse = "\x7b int x ; return x ; \x7d" := by
  have hTrees : localJob.unit.StatementTrees := by constructor <;> decide
  have hNode : localJob.codeGraph.arena.get? ⟨5⟩ = some (.function
      { name := "f", type := "int", tokens := localJob.codeGraph.arena.tokensOf ⟨5⟩, args := [], entry := ⟨0⟩,
        blocks := [] }) := by decide +kernel
  obtain ⟨-, -, -, -, hTokens, hRender⟩ := subtree_in_document_order localJob rfl hTrees hNode
  refine ⟨hTrees, by rw [Arena.function?, hNode]; rfl, by decide +kernel, hTokens, by decide +kernel, ?_⟩
  rw [hRender _ (List.reverse_perm _)]
  decide +kernel

end Job

end UnitGraph
