import UnitGraph.Extraction.Sequences
import UnitGraph.Proofs.Extraction.Nodes
import UnitGraph.Proofs.Traversal.Order

/-!
# The diagnostics of an extraction

What a mark reports depends on the unit alone, not on what was settled before it: the faults of a range are
those of its ends. So the reports of an extraction can be counted off its marks. Main statement: every owner
of an unresolvable range is reported as often as it claims, every visited function without a flow graph is
reported where it stands, and nothing else is.
-/
namespace UnitGraph

open Traversal

/-- Statements and definitions: wherever they have a node, they claim the tokens of their range. -/
def Entity.ownsRange : Entity → Bool
  | .stmt _ | .record _ | .enum _ | .typedef _ => true
  | .decl _ | .block .. | .function .. => false

namespace SourceUnit

/-- What is wrong with a range, if anything: its beginning is no token location, or else its end is none, or
else it ends before it begins. -/
def rangeFault? (u : SourceUnit) (r : SourceRange) : Option String :=
  match u.ledger.slot? r.first, u.ledger.slot? r.last with
  | none, _ => some s!"range begin {r.first} is not a token location"
  | some _, none => some s!"range end {r.last} is not a token location"
  | some a, some b => if b < a then some s!"range {r} ends before it begins" else none

/-- The report about the range of an entity, if there is something wrong with it. -/
def lookupFault? (u : SourceUnit) (e : Entity) : Option Diagnostic :=
  (e.range? u).bind fun r => (u.rangeFault? r).map fun reason =>
    ⟨.tokenLookup, s!"\x60{e.label u}\x60: {reason}", some r⟩

/-- The report about a function without a flow graph. -/
def flowFault? (u : SourceUnit) (d : DeclId) (e : FlowError) : Option Diagnostic :=
  (u.decl? d).map fun decl => e.diagnostic (u.nameOf d) decl.range

/-- What a mark reports about a range. -/
def lookupReport? (u : SourceUnit) : Mark → Option Diagnostic
  | .claim e => u.lookupFault? e
  | .skip d => u.lookupFault? (.decl d)
  | .noFlow .. => none

/-- What a mark reports about a flow graph. -/
def flowReport? (u : SourceUnit) : Mark → Option Diagnostic
  | .claim _ | .skip _ => none
  | .noFlow d e => u.flowFault? d e

/-- What a mark reports, whatever was settled before it. -/
def report? (u : SourceUnit) : Mark → Option Diagnostic
  | .claim e => u.lookupFault? e
  | .skip d => u.lookupFault? (.decl d)
  | .noFlow d e => u.flowFault? d e

variable {u : SourceUnit}

theorem rangeFault?_eq_match (u : SourceUnit) (r : SourceRange) : u.rangeFault? r =
    match u.ledger.resolve r with
    | .ok _ => none
    | .error e => some e.message := by
  unfold rangeFault? Ledger.resolve
  cases u.ledger.slot? r.first with
  | none => rfl
  | some a =>
      cases u.ledger.slot? r.last with
      | none => rfl
      | some b =>
          by_cases hab : a ≤ b
          · simp [hab, Nat.not_lt.mpr hab]
          · simp [hab, Nat.not_le.mp hab, LookupError.message]

/-- Nothing is wrong with a range that covers a position. -/
theorem rangeFault?_of_covers {r : SourceRange} {i : Nat} (h : u.Covers r i) : u.rangeFault? r = none := by
  obtain ⟨a, b, ha, hb, hai, hib⟩ := h
  simp only [rangeFault?, ha, hb]
  exact if_neg (by omega)

theorem code_of_lookupFault? {e : Entity} {d : Diagnostic} (h : u.lookupFault? e = some d) :
    d.code = .tokenLookup := by
  obtain ⟨r, -, h⟩ := Option.bind_eq_some_iff.mp h
  obtain ⟨reason, -, rfl⟩ := Option.map_eq_some_iff.mp h
  rfl

theorem code_of_flowFault? {f : DeclId} {e : FlowError} {d : Diagnostic} (h : u.flowFault? f e = some d) :
    d.code ≠ .tokenLookup := by
  obtain ⟨decl, -, rfl⟩ := Option.map_eq_some_iff.mp h
  cases e <;> exact nofun

section Step
variable {l : Ledger} {r : SourceRange}

theorem reports_settleAt_claim (hl : l.tokens = u.ledger.tokens) {e : Entity} (hr : e.range? u = some r) :
    reports [(u.settleAt l r (.claim e)).1] = (u.lookupFault? e).toList := by
  rw [lookupFault?, hr, Option.bind_some, rangeFault?_eq_match, settleAt, claim_eq hl]
  cases u.ledger.resolve r <;> rfl

theorem reports_settleAt_skip (hl : l.tokens = u.ledger.tokens) {d : DeclId}
    (hr : (Entity.decl d).range? u = some r) :
    reports [(u.settleAt l r (.skip d)).1] = (u.lookupFault? (.decl d)).toList := by
  rw [lookupFault?, hr, Option.bind_some, rangeFault?_eq_match, settleAt, Ledger.discard, claim_eq hl]
  cases u.ledger.resolve r <;> rfl

theorem reports_settle_singleton (hl : l.tokens = u.ledger.tokens) (m : Mark) :
    reports (u.settle l [m]) = (u.report? m).toList := by
  cases hr : u.rangeOf m with
  | none =>
      have hNone : u.report? m = none := by
        cases m with
        | claim e => exact congrArg (Option.bind · _) hr
        | skip d => exact congrArg (Option.bind · _) hr
        | noFlow d e => exact Option.map_eq_none_iff.mpr (Option.map_eq_none_iff.mp hr)
      rw [settle, hr, hNone]
      rfl
  | some r =>
      rw [(settle_singleton hr l).1]
      cases m with
      | claim e => exact reports_settleAt_claim hl hr
      | skip d => exact reports_settleAt_skip hl hr
      | noFlow d e =>
          obtain ⟨decl, hd, rfl⟩ := Option.map_eq_some_iff.mp hr
          rw [report?, flowFault?, hd]
          rfl

end Step

/-- The reports are those of the marks, one after the other. -/
theorem reports_settle {l : Ledger} (hl : l.tokens = u.ledger.tokens) (ms : List Mark) :
    reports (u.settle l ms) = ms.filterMap u.report? := by
  induction ms generalizing l with
  | nil => rfl
  | cons m ms ih =>
      -- the ledger moves on, but its tokens stay, and the reports depend on no more
      rw [← List.singleton_append, settle_append, reports_append, reports_settle_singleton hl,
        ih (tokens_settledLedger hl [m]), List.filterMap_append]
      cases hm : u.report? m <;> simp [hm]

/-- What the functions report when they take their tokens one after the other. -/
theorem diagnostics_sequences (u : SourceUnit) :
    u.sequences.diagnostics = u.sequenceMarks.filterMap u.report? :=
  reports_settle rfl _

/-- The code of a report tells whether it is about a range or about a flow graph. -/
theorem filter_report?_lookup (u : SourceUnit) (m : Mark) :
    (u.report? m).filter (·.code = .tokenLookup) = u.lookupReport? m := by
  have hLookup : ∀ e, (u.lookupFault? e).filter (·.code = .tokenLookup) = u.lookupFault? e := by
    intro e
    cases hd : u.lookupFault? e with
    | none => rfl
    | some d => exact Option.filter_some_pos (decide_eq_true (code_of_lookupFault? hd))
  cases m with
  | claim e => exact hLookup e
  | skip d => exact hLookup (.decl d)
  | noFlow d e => exact Option.filter_eq_none_iff.mpr fun _ h => by simpa using code_of_flowFault? h

theorem filter_report?_flow (u : SourceUnit) (m : Mark) :
    (u.report? m).filter (·.code ≠ .tokenLookup) = u.flowReport? m := by
  have hLookup : ∀ e, (u.lookupFault? e).filter (·.code ≠ .tokenLookup) = none := by
    intro e
    exact Option.filter_eq_none_iff.mpr fun _ h => by simpa using code_of_lookupFault? h
  cases m with
  | claim e => exact hLookup e
  | skip d => exact hLookup (.decl d)
  | noFlow d e =>
      rw [report?, flowReport?]
      cases hd : u.flowFault? d e with
      | none => rfl
      | some x => exact Option.filter_some_pos (decide_eq_true (code_of_flowFault? hd))

/-- Whose range a declaration of the top level claims, apart from what is below it: a visited function claims
for each of its parameters and for itself, a skipped function only for itself. -/
def siteOwners (u : SourceUnit) (site : Nat) (d : DeclId) : List Entity :=
  match u.declKind? d with
  | some (.function params _) =>
      (if (u.definition? d).isSome then params.map .decl else []) ++ [.function site d]
  | _ => []

theorem siteOwners_of_definition {d : DeclId} {params : List DeclId} {body : StmtId}
    (h : u.definition? d = some (params, body)) (site : Nat) :
    u.siteOwners site d = params.map .decl ++ [.function site d] := by
  simp [siteOwners, Job.declKind?_of_definition? h, h]

theorem siteOwners_of_skipped {d : DeclId} (h : u.Skipped d) (site : Nat) :
    u.siteOwners site d = [.function site d] := by
  obtain ⟨⟨params, body, hk⟩, hDef⟩ := h
  simp [siteOwners, hk, hDef]

theorem siteOwners_of_not_function {d : DeclId} (hDef : u.definition? d = none) (hSkip : ¬ u.Skipped d)
    (site : Nat) : u.siteOwners site d = [] := by
  unfold siteOwners
  split
  · next params body hk => exact absurd ⟨⟨params, body, hk⟩, hDef⟩ hSkip
  · rfl

theorem decl_mem_siteOwners {d f : DeclId} {site : Nat} (h : .decl d ∈ u.siteOwners site f) :
    ∃ params body, u.definition? f = some (params, body) ∧ d ∈ params := by
  cases hDef : u.definition? f with
  | some definition =>
      rw [siteOwners_of_definition hDef] at h
      exact ⟨definition.1, definition.2, rfl, by simpa using h⟩
  | none =>
      by_cases hSkip : u.Skipped f
      · rw [siteOwners_of_skipped hSkip] at h
        simp at h
      · rw [siteOwners_of_not_function hDef hSkip] at h
        cases h

end SourceUnit

namespace Job

variable {j : Job}

/-- Whose ranges an extraction needs, as often as it does: those of the statements and of the definitions that
have a node, and those that the top level claims. -/
def rangeOwners (j : Job) : List Entity :=
  j.registry.keys.filter Entity.ownsRange ++
    j.unit.topLevel.zipIdx.flatMap fun (d, site) => j.unit.siteOwners site d

/-- Why a function has no flow blocks although they are wanted: the frontend builds no graph of it, or an edge
leaves the graph. -/
def noFlow? (j : Job) (d : DeclId) : Option FlowError :=
  if j.options.flowBlocks then
    match j.frontend.flowGraph j.unit d with
    | .ok g => g.firstDangling?
    | .error e => some e
  else none

/-- The report about a function that has no flow blocks although they are wanted. -/
def flowWarning? (j : Job) (d : DeclId) : Option Diagnostic := (j.noFlow? d).bind (j.unit.flowFault? d)

theorem diagnostics_eq_filterMap (j : Job) :
    j.codeGraph.diagnostics = (marks j.events).filterMap j.unit.report? :=
  SourceUnit.reports_settle rfl _

/-- What the top level claims at one place is reported for its owners there. -/
theorem lookupReports_siteAgenda (j : Job) (site : Nat) (d : DeclId) :
    (itemMarks (j.siteAgenda site d)).filterMap j.unit.lookupReport? =
      (j.unit.siteOwners site d).filterMap j.unit.lookupFault? := by
  obtain ⟨params, body, hDef, hs⟩ | ⟨hSkip, hs⟩ | ⟨hRecord, hs⟩ | ⟨hDef, hSkip, _, hs⟩ :=
    j.siteAgenda_cases site d
  · have hFlow : (itemMarks (j.flowAgenda d)).filterMap j.unit.lookupReport? = [] := by
      refine List.filterMap_eq_nil_iff.mpr fun m hm => ?_
      obtain ⟨_, e, _, rfl⟩ := mem_itemMarks_flowAgenda.mp hm
      rfl
    rw [hs, itemMarks_functionAgenda, SourceUnit.siteOwners_of_definition hDef, List.filterMap_append,
      List.filterMap_append, hFlow, List.filterMap_append, List.append_nil, List.filterMap_map,
      List.filterMap_map]
    rfl
  · rw [hs, SourceUnit.siteOwners_of_skipped hSkip]
    rfl
  · rw [hs, SourceUnit.siteOwners_of_not_function (definition?_of_isRecord hRecord)
      (not_skipped_of_isRecord hRecord)]
    split <;> rfl
  · rw [hs, SourceUnit.siteOwners_of_not_function hDef hSkip]
    rfl

theorem lookupReports_program (j : Job) :
    (itemMarks j.program).filterMap j.unit.lookupReport? =
      (j.unit.topLevel.zipIdx.flatMap fun (d, site) => j.unit.siteOwners site d).filterMap
        j.unit.lookupFault? := by
  rw [program, itemMarks_flatMap, List.filterMap_flatMap, List.filterMap_flatMap]
  exact List.flatMap_congr fun x _ => j.lookupReports_siteAgenda x.2 x.1

/-- The entities met that claim for themselves are reported like all of their kinds. -/
theorem lookupReports_entities (j : Job) :
    ((j.entities.filter j.claimsItself).map Mark.claim).filterMap j.unit.lookupReport? =
      (j.entities.filter Entity.ownsRange).filterMap j.unit.lookupFault? := by
  rw [List.filterMap_map, List.filterMap_filter, List.filterMap_filter]
  refine List.filterMap_congr fun e _ => ?_
  cases e with
  | stmt s =>
      cases hs : j.unit.stmt? s with
      | none => simp [claimsItself, SourceUnit.lookupFault?, Entity.range?, hs]
      | some stmt => simp [claimsItself, Entity.ownsRange, SourceUnit.lookupReport?, hs]
  | _ => rfl

theorem lookup_diagnostics_perm (j : Job) : (j.codeGraph.diagnostics.filter (·.code = .tokenLookup)).Perm
    (j.rangeOwners.filterMap j.unit.lookupFault?) := by
  have hKeys : j.registry.keys = j.entities := Registry.keys_ofKeys _ j.entities_nodup
  have hMarks := j.marks_events_perm.filterMap j.unit.lookupReport?
  rw [List.filterMap_append, lookupReports_program, lookupReports_entities] at hMarks
  rw [diagnostics_eq_filterMap, List.filter_filterMap, rangeOwners, hKeys, List.filterMap_append]
  simp only [SourceUnit.filter_report?_lookup]
  exact hMarks.trans List.perm_append_comm

theorem itemMarks_flowAgenda (j : Job) (d : DeclId) :
    itemMarks (j.flowAgenda d) = (j.noFlow? d).toList.map (.noFlow d ·) := by
  unfold flowAgenda noFlow? flow
  split
  · cases hg : j.frontend.flowGraph j.unit d with
    | error e => rfl
    | ok g =>
        simp only [Except.bind, FlowGraph.checked]
        cases g.firstDangling? with
        | none => exact itemMarks_map_visit _ _
        | some e => rfl
  · rfl

/-- What the top level tells about flow graphs at one place. -/
theorem flowReports_siteAgenda (j : Job) (site : Nat) (d : DeclId) :
    (itemMarks (j.siteAgenda site d)).filterMap j.unit.flowReport? =
      ((j.unit.definition? d).bind fun _ => j.flowWarning? d).toList := by
  obtain ⟨params, body, hDef, hs⟩ | ⟨hSkip, hs⟩ | ⟨hRecord, hs⟩ | ⟨hDef, -, -, hs⟩ := j.siteAgenda_cases site d
  · have hClaims : (params.map fun p => Mark.claim (.decl p)).filterMap j.unit.flowReport? = [] := by
      rw [List.filterMap_map]
      exact List.filterMap_eq_nil_iff.mpr fun _ _ => rfl
    rw [hs, hDef, itemMarks_functionAgenda, itemMarks_flowAgenda, List.filterMap_append,
      List.filterMap_append, hClaims, Option.bind_some, flowWarning?]
    cases j.noFlow? d with
    | none => rfl
    | some e => exact (List.filterMap_eq_flatMap_toList ..).trans (List.append_nil _)
  · rw [hs, hSkip.2]
    rfl
  · rw [hs, definition?_of_isRecord hRecord]
    split <;> rfl
  · rw [hs, hDef]
    rfl

theorem flowReports_program (j : Job) :
    (itemMarks j.program).filterMap j.unit.flowReport? =
      j.topFunctions.filterMap fun (_, d) => j.flowWarning? d := by
  rw [program, topFunctions, itemMarks_flatMap, List.filterMap_flatMap, List.filterMap_filterMap,
    List.filterMap_eq_flatMap_toList]
  refine List.flatMap_congr fun x _ => ?_
  obtain ⟨d, site⟩ := x
  simp only [flowReports_siteAgenda, SourceUnit.definition?]
  cases (j.unit.decl? d).bind Decl.definition? <;> rfl

theorem flow_diagnostics (j : Job) : j.codeGraph.diagnostics.filter (·.code ≠ .tokenLookup) =
    j.topFunctions.filterMap fun (_, d) => j.flowWarning? d := by
  -- the marks that entities leave are claims: only the top level tells about flow graphs
  have hOwn : ∀ e, ∀ m ∈ itemMarks (j.agenda e), j.unit.flowReport? m = none := by
    intro e m hm
    rw [itemMarks_agenda] at hm
    split at hm
    · cases List.mem_singleton.mp hm
      rfl
    · cases hm
  rw [diagnostics_eq_filterMap, List.filter_filterMap]
  simp only [SourceUnit.filter_report?_flow]
  exact (filterMap_marks_run j.closed_pool hOwn requested_program_pool).trans j.flowReports_program

/-- A node whose range is faulty has no tokens. -/
theorem tokensOf_of_rangeFault {e : Entity} {x : NodeId} {r : SourceRange} (he : j.registry.get? e = some x)
    (hr : e.range? j.unit = some r) (hFault : (j.unit.rangeFault? r).isSome) :
    j.codeGraph.arena.tokensOf x = [] := by
  rw [tokensOf_eq he, List.filter_eq_nil_iff]
  intro t _ ht
  obtain ⟨r', hr', hCovers⟩ := SourceUnit.takes_claim_iff.mp (claims_of_awarded ht).2
  cases hr.symm.trans hr'
  rw [SourceUnit.rangeFault?_of_covers hCovers] at hFault
  cases hFault

/-- A declaration claims only as a parameter of a visited function. -/
theorem claim_decl_not_mem_marks {d : DeclId}
    (h : ∀ site f params body, j.Visits site f params body → d ∉ params) :
    .claim (.decl d) ∉ marks j.events := by
  intro hClaim
  cases claim_mem_marks_iff.mp hClaim with
  | param hVisits hp => exact h _ _ _ _ hVisits hp
  | itself _ hOwn => cases hOwn

theorem decl_not_mem_rangeOwners {d : DeclId}
    (h : ∀ site f params body, j.Visits site f params body → d ∉ params) : .decl d ∉ j.rangeOwners := by
  intro hOwner
  rcases List.mem_append.mp hOwner with hOwner | hOwner
  · cases (List.mem_filter.mp hOwner).2
  · obtain ⟨⟨f, site⟩, hSite, hOwner⟩ := List.mem_flatMap.mp hOwner
    obtain ⟨params, body, hDef, hd⟩ := SourceUnit.decl_mem_siteOwners hOwner
    exact h site f params body ⟨List.mem_zipIdx_iff_getElem?.mp hSite, hDef⟩ hd

end Job

end UnitGraph
