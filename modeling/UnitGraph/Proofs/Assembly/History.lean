import UnitGraph.Proofs.Extraction.Canonical
import UnitGraph.Proofs.Extraction.Sequences

/-!
# Histories of an extraction

How far an extraction has come is told by its history, the events up to that moment. Working off an agenda
extends the history. The entities entered so far have their final identities, and an entity that has made
its only claim holds what it will hold in the end.
-/
namespace UnitGraph

open Traversal

namespace Job

abbrev History := List (Event Entity Mark)

/-- The history when an agenda has been worked off. -/
def after (j : Job) (h : History) (items : List (Item Entity Mark)) : History :=
  h ++ run j.agenda j.pool (entered h).reverse items

/-- A history that the extraction goes through. -/
def Reached (j : Job) (h : History) : Prop := h <+: j.events

/-- What an entity has been granted so far. -/
def held (j : Job) (h : History) (e : Entity) : List Token :=
  holdings (j.unit.settle j.unit.ledger (marks h)) e

variable {j : Job} {h : History} {e : Entity}

section After

@[simp] theorem after_nil (j : Job) (h : History) : j.after h [] = h := List.append_nil h

theorem after_append (j : Job) (h : History) (xs ys : List (Item Entity Mark)) :
    j.after h (xs ++ ys) = j.after (j.after h xs) ys := by
  simp only [after, run_append, entered_append, List.reverse_append, List.append_assoc]

@[simp] theorem after_mark (j : Job) (h : History) (m : Mark) : j.after h [.mark m] = h ++ [.marked m] := by
  rw [after, run_mark, run_nil]

theorem after_visit_seen (hs : e ∈ entered h) : j.after h [.visit e] = h := by
  rw [after, run_visit_seen _ _ (List.mem_reverse.mpr hs), run_nil, List.append_nil]

theorem after_visit (he : e ∈ j.pool) (hs : e ∉ entered h) :
    j.after h [.visit e] = j.after (h ++ [.entered e]) (j.agenda e) := by
  rw [after, run_visit j.closed_pool he (mt List.mem_reverse.mp hs), run_nil, List.append_nil, after]
  simp only [entered_append, entered_cons_entered, entered_nil, List.reverse_append, List.reverse_cons,
    List.reverse_nil, List.nil_append, List.singleton_append, List.append_assoc]

theorem mem_entered_after_visit (j : Job) (h : History) (he : e ∈ j.pool) :
    e ∈ entered (j.after h [.visit e]) := by
  by_cases hs : e ∈ entered h
  · rwa [after_visit_seen hs]
  · rw [after_visit he hs, after]
    simp

theorem prefix_after (j : Job) (h : History) (items : List (Item Entity Mark)) : h <+: j.after h items :=
  List.prefix_append ..

theorem mem_entered_mono {h' : History} (hp : h <+: h') (he : e ∈ entered h) : e ∈ entered h' :=
  (hp.filterMap _).subset he

theorem entered_after (j : Job) (h : History) (items : List (Item Entity Mark)) :
    entered (j.after h items) = entered h ++ entered (run j.agenda j.pool (entered h).reverse items) :=
  entered_append ..

theorem marks_after (j : Job) (h : History) (items : List (Item Entity Mark)) :
    marks (j.after h items) = marks h ++ marks (run j.agenda j.pool (entered h).reverse items) :=
  marks_append ..

end After

section Entities

theorem requested_agenda_pool (he : e ∈ j.entities) : ∀ e' ∈ requested (j.agenda e), e' ∈ j.pool :=
  j.closed_pool e (mem_pool_of_mem_entities he)

theorem Reached.earlier {h' : History} (hr : j.Reached h') (hp : h <+: h') : j.Reached h := hp.trans hr

theorem Reached.before {items : List (Item Entity Mark)} (hr : j.Reached (j.after h items)) : j.Reached h :=
  hr.earlier (j.prefix_after h items)

theorem Reached.entered_initial (hr : j.Reached h) : entered h <+: j.entities := hr.filterMap _

theorem Reached.mem_entities (hr : j.Reached h) (he : e ∈ entered h) : e ∈ j.entities :=
  hr.entered_initial.subset he

theorem Reached.length_le (hr : j.Reached h) : (entered h).length ≤ j.entities.length :=
  hr.entered_initial.length_le

theorem Reached.idOf_of_getElem? (hr : j.Reached h) {i : Nat} (hi : (entered h)[i]? = some e) :
    j.idOf e = ⟨i⟩ := by
  refine idOf_of_registry (registry_get?_iff.mpr ?_)
  obtain ⟨rest, hRest⟩ := hr.entered_initial
  rw [← hRest, List.getElem?_append_left (List.getElem?_eq_some_iff.mp hi).1]
  exact hi

/-- The node of the entity that is entered next comes next. -/
theorem Reached.idOf_entered (hr : j.Reached (h ++ [.entered e])) : j.idOf e = ⟨(entered h).length⟩ :=
  hr.idOf_of_getElem? (by simp)

theorem Reached.idOf_lt (hr : j.Reached h) (he : e ∈ entered h) : (j.idOf e).index < (entered h).length := by
  obtain ⟨i, hi⟩ := List.getElem?_of_mem he
  rw [hr.idOf_of_getElem? hi]
  exact (List.getElem?_eq_some_iff.mp hi).1

theorem function_of_mem_entered_after {site : Nat} {d : DeclId} {items : List (Item Entity Mark)}
    (hPool : ∀ b ∈ requested items, b ∈ j.pool) (he : .function site d ∈ entered (j.after h items)) :
    .function site d ∈ entered h ∨ .function site d ∈ requested items := by
  rw [entered_after, List.mem_append] at he
  refine he.imp id fun hRun => ?_
  refine forall_entered_run j.closed_pool (P := fun e => isFunction e = true → e ∈ requested items) ?_ hPool
    (fun b hb _ => hb) _ hRun rfl
  intro e _ e' he' hFunction
  cases mem_requested_agenda.mp he' <;> cases hFunction

end Entities

section Held

theorem mem_marks_after {m : Mark} {items : List (Item Entity Mark)}
    (hPool : ∀ b ∈ requested items, b ∈ j.pool) (hm : m ∈ itemMarks items) : m ∈ marks (j.after h items) := by
  rw [marks_after]
  exact List.mem_append_right _ (mem_marks_of_itemMarks j.closed_pool hPool hm)

/-- A visit leaves no declaration's claim: only the top level does, for parameters. -/
theorem claim_decl_not_mem_marks_run {d : DeclId} {seen : List Entity} {items : List (Item Entity Mark)}
    (hPool : ∀ b ∈ requested items, b ∈ j.pool) (hm : .claim (.decl d) ∉ itemMarks items) :
    .claim (.decl d) ∉ marks (run j.agenda j.pool seen items) := by
  rw [(marks_run_perm j.closed_pool hPool).mem_iff, List.mem_append, List.mem_flatMap]
  rintro (h | ⟨e, _, h⟩)
  · exact hm h
  · rw [itemMarks_agenda] at h
    split at h
    · next hOwn =>
        cases List.mem_singleton.mp h
        cases hOwn
    · cases h

theorem held_marked_of_ne {m : Mark} (hm : m ≠ .claim e) : j.held (h ++ [.marked m]) e = j.held h e := by
  have hOne : holdings (j.unit.settle (j.unit.settledLedger j.unit.ledger (marks h)) [m]) e = [] :=
    SourceUnit.holdings_settle_of_not_mem (by simpa using Ne.symm hm) _
  rw [held, marks_append, SourceUnit.settle_append, SourceUnit.holdings_append]
  exact (congrArg _ hOne).trans (List.append_nil _)

theorem held_of_not_claimed (hm : .claim e ∉ marks h) : j.held h e = [] :=
  SourceUnit.holdings_settle_of_not_mem hm _

/-- Whatever claims only once holds all that it will hold as soon as it has claimed. -/
theorem held_of_claimed (hOnce : (marks j.events).count (.claim e) ≤ 1) (hr : j.Reached h)
    (hm : .claim e ∈ marks h) : j.held h e = holdings j.outcomes e := by
  obtain ⟨rest, hRest⟩ := hr
  have hLater : .claim e ∉ marks rest := by
    intro hAgain
    rw [← hRest, marks_append, List.count_append] at hOnce
    have := List.count_pos_iff.mpr hm
    have := List.count_pos_iff.mpr hAgain
    omega
  rw [outcomes, ← hRest, marks_append, SourceUnit.settle_append, SourceUnit.holdings_append,
    SourceUnit.holdings_settle_of_not_mem hLater, List.append_nil, held]

theorem not_claimed_before (hOnce : (marks j.events).count (.claim e) ≤ 1)
    (hr : j.Reached (h ++ [.marked (.claim e)])) : .claim e ∉ marks h := by
  intro hm
  obtain ⟨rest, hRest⟩ := hr
  rw [← hRest, marks_append, marks_append, List.count_append, List.count_append] at hOnce
  have := List.count_pos_iff.mpr hm
  simp at hOnce
  omega

theorem held_after_visit (hOwn : j.claimsItself e = true) (he : e ∈ j.entities) (hs : e ∉ entered h)
    (hr : j.Reached (j.after h [.visit e])) : j.held (j.after h [.visit e]) e = holdings j.outcomes e := by
  refine held_of_claimed (count_claim_of_claimsItself hOwn) hr ?_
  rw [after_visit (mem_pool_of_mem_entities he) hs]
  exact mem_marks_after (requested_agenda_pool he) (by simp [itemMarks_agenda, hOwn])

end Held

section Functions

/-- Whether a mark is the claim of a function. -/
def isFunctionClaim : Mark → Bool
  | .claim e => isFunction e
  | _ => false

theorem filter_sequenceMarks (j : Job) : j.unit.sequenceMarks.filter isFunctionClaim =
    j.topFunctions.map fun f => .claim (.function f.1 f.2) := by
  simp only [SourceUnit.sequenceMarks, topFunctions, List.map_filterMap, List.filter_filterMap]
  congr 1
  funext x
  obtain ⟨d, site⟩ := x
  rw [← SourceUnit.definition?]
  rcases j.unit.sequenceMark?_cases site d with ⟨hDef, hMark⟩ | ⟨hDef, hMark | hMark⟩
  · obtain ⟨definition, hDef⟩ := Option.isSome_iff_exists.mp hDef
    rw [hMark, hDef]
    rfl
  · rw [hMark, hDef]
    rfl
  · rw [hMark, hDef]
    rfl

/-- A function claims once, where it stands. -/
theorem count_claim_function (j : Job) (site : Nat) (d : DeclId) :
    (marks j.events).count (.claim (.function site d)) ≤ 1 := by
  have hNodup : (j.topFunctions.map fun f => Mark.claim (.function f.1 f.2)).Nodup := by
    refine List.pairwise_map.mpr (j.topFunctions_pairwise.imp ?_)
    intro f g hfg hEq
    exact absurd (Entity.function.inj (Mark.claim.inj hEq)).1 (Nat.ne_of_lt hfg)
  rw [← List.count_filter (p := Mark.ofSequence) rfl, filter_marks_events,
    ← List.count_filter (p := isFunctionClaim) rfl, filter_sequenceMarks]
  exact List.nodup_iff_count_le_one.mp hNodup _

end Functions

end Job

end UnitGraph
