import UnitGraph.Assembly.Visit
import UnitGraph.Proofs.Assembly.Checked
import UnitGraph.Proofs.Assembly.History

/-!
# Assemblies that keep track of a history

An assembly tracks a history if its ledger, its diagnostics and its nodes are those that belong to the
events so far, except that some nodes are still drafts. A step of an assembly keeps track of one more event.
-/
namespace UnitGraph

namespace Arena

variable {a : Arena} {id : NodeId} {n : Node}

@[simp] theorem size_push : (a.push n).size = a.size + 1 := Array.size_push n

@[simp] theorem size_set : (a.set id n).size = a.size := Array.size_setIfInBounds

theorem get?_push_of_lt (h : id.index < a.size) : (a.push n).get? id = a.get? id := by
  simp only [get?, push, Array.getElem?_push]
  exact if_neg (Nat.ne_of_lt h)

theorem get?_push_size : (a.push n).get? ⟨a.size⟩ = some n := Array.getElem?_push_size

theorem get?_set_of_ne {id' : NodeId} (h : id' ≠ id) : (a.set id n).get? id' = a.get? id' :=
  Array.getElem?_setIfInBounds_ne fun hEq => h (congrArg NodeId.mk hEq.symm)

theorem get?_set_self (h : id.index < a.size) : (a.set id n).get? id = some n :=
  Array.getElem?_setIfInBounds_self_of_lt h

theorem ext_get? {b : Arena} (h : ∀ id, a.get? id = b.get? id) : a = b :=
  congrArg Arena.mk (Array.ext_getElem? fun i => h ⟨i⟩)

end Arena

/-- The assembly when a mark about a range has been settled. -/
def Assembly.settle (u : SourceUnit) (a : Assembly) (r : SourceRange) (m : Mark) : Assembly :=
  { a with ledger := (u.settleAt a.ledger r m).2
           diagnostics := a.diagnostics ++ reports [(u.settleAt a.ledger r m).1] }

namespace Job

open Traversal Assembling

/-- The assembly stands where the extraction stands after a history. Some entities have no more than a draft
of their nodes, and some records have been met at top level. -/
structure Tracks (j : Job) (tops : List NodeId) (drafts : List (Entity × Node)) (h : History)
    (a : Assembly) : Prop where
  ledger : a.ledger = j.unit.settledLedger j.unit.ledger (marks h)
  diagnostics : a.diagnostics = reports (j.unit.settle j.unit.ledger (marks h))
  size : a.arena.size = (entered h).length
  registry : ∀ e, isFunction e = false →
    a.registry.get? e = if e ∈ entered h then some (j.idOf e) else none
  draft : ∀ e n, (e, n) ∈ drafts → e ∈ entered h ∧ a.arena.get? (j.idOf e) = some n
  node : ∀ e ∈ entered h, (∀ n, (e, n) ∉ drafts) →
    a.arena.get? (j.idOf e) = some (j.nodeOf j.idOf (j.held h e) e)
  functions : a.functions = ((entered h).filter isFunction).map j.idOf
  records : a.records = tops
  claimed : ∀ d, .claim (.decl d) ∈ marks h → .decl d ∈ entered h

variable {j : Job} {tops : List NodeId} {drafts : List (Entity × Node)} {h : History} {a : Assembly}

theorem tracks_nil (j : Job) : j.Tracks [] [] [] { ledger := j.unit.ledger } where
  ledger := rfl
  diagnostics := rfl
  size := rfl
  registry _ _ := rfl
  draft e n hn := by cases hn
  node e he := by cases he
  functions := rfl
  records := rfl
  claimed d hd := by cases hd

namespace Tracks

variable (ht : j.Tracks tops drafts h a)
include ht

theorem tokens_ledger : a.ledger.tokens = j.unit.ledger.tokens := by
  rw [ht.ledger, SourceUnit.tokens_settledLedger rfl]

/-- The marks of an agenda are settled one at a time. -/
theorem mark {m : Mark} {r : SourceRange} (hRange : j.unit.rangeOf m = some r)
    (hDraft : ∀ e, m = .claim e → e ∈ entered h → ∃ n, (e, n) ∈ drafts)
    (hDecl : ∀ d, m = .claim (.decl d) → .decl d ∈ entered h) :
    j.Tracks tops drafts (h ++ [.marked m]) (a.settle j.unit r m) := by
  have hEntered : entered (h ++ [.marked m]) = entered h := by simp
  have hMarks : marks (h ++ [.marked m]) = marks h ++ [m] := by simp
  constructor
  case ledger =>
    rw [hMarks, SourceUnit.settledLedger_append, ← ht.ledger, (SourceUnit.settle_singleton hRange _).2]
    rfl
  case diagnostics =>
    rw [hMarks, SourceUnit.settle_append, SourceUnit.reports_append, ← ht.ledger, ← ht.diagnostics,
      (SourceUnit.settle_singleton hRange _).1]
    rfl
  case size => rw [hEntered]; exact ht.size
  case registry => rw [hEntered]; exact ht.registry
  case draft => rw [hEntered]; exact ht.draft
  case node =>
    intro e he hNone
    rw [hEntered] at he
    have hOther : m ≠ .claim e := fun hEq => by
      obtain ⟨n, hn⟩ := hDraft e hEq he
      exact hNone n hn
    rw [held_marked_of_ne hOther]
    exact ht.node e he hNone
  case functions => rw [hEntered]; exact ht.functions
  case records => exact ht.records
  case claimed =>
    intro d hd
    rw [hMarks, List.mem_append, List.mem_singleton] at hd
    rw [hEntered]
    exact hd.elim (ht.claimed d) fun hEq => hDecl d hEq.symm

/-- What a mark grants is added to what was held before. -/
theorem held_marked {m : Mark} {r : SourceRange} (hRange : j.unit.rangeOf m = some r) (e : Entity) :
    j.held (h ++ [.marked m]) e = j.held h e ++ holdings [(j.unit.settleAt a.ledger r m).1] e := by
  rw [← (SourceUnit.settle_singleton hRange a.ledger).1, ht.ledger, held, marks_append,
    SourceUnit.settle_append, SourceUnit.holdings_append]
  rfl

theorem idOf_new {e : Entity} (hr : j.Reached (h ++ [.entered e])) : j.idOf e = ⟨a.arena.size⟩ := by
  rw [hr.idOf_entered, ht.size]

/-- A node that comes next leaves the others alone. -/
theorem get?_push {e e' : Entity} {n : Node} (hr : j.Reached (h ++ [.entered e])) (he' : e' ∈ entered h) :
    (a.arena.push n).get? (j.idOf e') = a.arena.get? (j.idOf e') := by
  refine Arena.get?_push_of_lt ?_
  rw [ht.size]
  exact (hr.earlier (List.prefix_append ..)).idOf_lt he'

/-- An entity is entered with a draft of its node. -/
theorem enter {e : Entity} {n : Node} {a' : Assembly} (hr : j.Reached (h ++ [.entered e]))
    (hArena : a'.arena = a.arena.push n)
    (hRegistry : ∀ e', isFunction e' = false →
      a'.registry.get? e' = if e' = e then some (j.idOf e) else a.registry.get? e')
    (hFunctions : a'.functions = a.functions ++ if isFunction e then [j.idOf e] else [])
    (hRest : (a'.ledger, a'.diagnostics, a'.records) = (a.ledger, a.diagnostics, a.records)) :
    j.Tracks tops ((e, n) :: drafts) (h ++ [.entered e]) a' := by
  have hEntered : entered (h ++ [.entered e]) = entered h ++ [e] := by simp
  have hMarks : marks (h ++ [.entered e]) = marks h := by simp
  obtain ⟨hLedger, hDiagnostics, hRecords⟩ : a'.ledger = a.ledger ∧ a'.diagnostics = a.diagnostics ∧
    a'.records = a.records := by simpa using hRest
  constructor
  case ledger => rw [hMarks, hLedger]; exact ht.ledger
  case diagnostics => rw [hMarks, hDiagnostics]; exact ht.diagnostics
  case size => simp [hArena, ht.size]
  case registry =>
    intro e' he'
    rw [hRegistry e' he', ht.registry e' he', hEntered]
    by_cases hEq : e' = e <;> simp [hEq]
  case draft =>
    intro e' n' hn'
    rw [hEntered, List.mem_append, List.mem_singleton, hArena]
    rcases List.mem_cons.mp hn' with hEq | hn'
    · cases hEq
      exact ⟨Or.inr rfl, by rw [ht.idOf_new hr]; exact Arena.get?_push_size⟩
    · obtain ⟨he', hGet⟩ := ht.draft e' n' hn'
      exact ⟨Or.inl he', (ht.get?_push hr he').trans hGet⟩
  case node =>
    intro e' he' hNone
    obtain ⟨hNe, hNone⟩ : e' ≠ e ∧ ∀ n', (e', n') ∉ drafts :=
      ⟨fun hEq => hNone n (by simp [hEq]), fun n' hn' => hNone n' (List.mem_cons_of_mem _ hn')⟩
    rw [hEntered, List.mem_append, List.mem_singleton] at he'
    have he' := he'.resolve_right hNe
    rw [held, hMarks, hArena]
    exact (ht.get?_push hr he').trans (ht.node e' he' hNone)
  case functions =>
    rw [hFunctions, hEntered, List.filter_append, List.map_append, ht.functions, List.filter_singleton]
    cases isFunction e <;> rfl
  case records => rw [hRecords]; exact ht.records
  case claimed =>
    intro d hd
    rw [hMarks] at hd
    rw [hEntered]
    exact List.mem_append_left _ (ht.claimed d hd)

/-- A node that is as it is to be may be taken up as a draft again. -/
theorem reopen {e : Entity} (he : e ∈ entered h) (hNone : ∀ n, (e, n) ∉ drafts) :
    j.Tracks tops ((e, j.nodeOf j.idOf (j.held h e) e) :: drafts) h a where
  __ := ht
  draft e' n' hn' := by
    rcases List.mem_cons.mp hn' with hEq | hn'
    · cases hEq
      exact ⟨he, ht.node e he hNone⟩
    · exact ht.draft e' n' hn'
  node e' he' hNone' := ht.node e' he' fun n' hn' => hNone' n' (List.mem_cons_of_mem _ hn')

end Tracks

/-- A draft that is the node as it is to be is no draft any more. -/
theorem Tracks.close {e : Entity} (ht : j.Tracks tops ((e, j.nodeOf j.idOf (j.held h e) e) :: drafts) h a) :
    j.Tracks tops drafts h a where
  __ := ht
  draft e' n' hn' := ht.draft e' n' (List.mem_cons_of_mem _ hn')
  node e' he' hNone := by
    by_cases hEq : e' = e
    · subst hEq
      exact (ht.draft e' _ List.mem_cons_self).2
    · refine ht.node e' he' fun n' hn' => ?_
      rcases List.mem_cons.mp hn' with hHead | hn'
      · exact hEq (Prod.mk.inj hHead).1
      · exact hNone n' hn'

/-- A draft may be rewritten. -/
theorem Tracks.rewrite {e : Entity} {n : Node} (ht : j.Tracks tops ((e, n) :: drafts) h a)
    (hr : j.Reached h) (hNone : ∀ n, (e, n) ∉ drafts) (n' : Node) :
    j.Tracks tops ((e, n') :: drafts) h { a with arena := a.arena.set (j.idOf e) n' } := by
  obtain ⟨he, hGet⟩ := ht.draft e n List.mem_cons_self
  have hOther : ∀ e' ∈ entered h, e' ≠ e → j.idOf e' ≠ j.idOf e := fun e' he' hNe hEq =>
    hNe (idOf_inj (hr.mem_entities he') (hr.mem_entities he) hEq)
  refine { ht with size := ?size, draft := ?draft, node := ?node }
  case size => exact Arena.size_set.trans ht.size
  case draft =>
    intro e' n'' hn''
    rcases List.mem_cons.mp hn'' with hEq | hn''
    · cases hEq
      exact ⟨he, Arena.get?_set_self (by rw [ht.size]; exact hr.idOf_lt he)⟩
    · obtain ⟨he', hGet'⟩ := ht.draft e' n'' (List.mem_cons_of_mem _ hn'')
      have hNe : e' ≠ e := fun hEq => hNone n'' (hEq ▸ hn'')
      exact ⟨he', (Arena.get?_set_of_ne (hOther e' he' hNe)).trans hGet'⟩
  case node =>
    intro e' he' hNone'
    have hNe : e' ≠ e := fun hEq => hNone' n' (by simp [hEq])
    refine (Arena.get?_set_of_ne (hOther e' he' hNe)).trans (ht.node e' he' fun n'' hn'' => ?_)
    rcases List.mem_cons.mp hn'' with hHead | hn''
    · exact hNe (Prod.mk.inj hHead).1
    · exact hNone' n'' (List.mem_cons_of_mem _ hn'')

end Job

end UnitGraph
