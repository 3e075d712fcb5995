import UnitGraph.Extraction.Agenda
import UnitGraph.Proofs.Traversal.Origin

/-!
# What an extraction asks for and marks

A declaration of the top level is a defined function, a skipped function, a record or of no account. The
pool of an extraction is closed, on every unit: an identity outside the tables asks for nothing. So each
entity is entered once, everything asked for is entered, and the marks met are those of the entities
entered and of the top level.
-/
namespace UnitGraph

open Traversal

/-- The places of a list are in order. -/
theorem pairwise_zipIdx {α : Type} (l : List α) : l.zipIdx.Pairwise (·.2 < ·.2) := by
  have h : (l.zipIdx.map Prod.snd).Pairwise (· < ·) := by
    rw [List.zipIdx_map_snd]
    exact List.pairwise_lt_range'
  exact List.pairwise_map.mp h

namespace SourceUnit

/-- Parameters and body of a declaration that is a defined function. -/
def definition? (u : SourceUnit) (d : DeclId) : Option (List DeclId × StmtId) :=
  (u.decl? d).bind Decl.definition?

/-- A function that gets no node: it has no body, or its name is no identifier. -/
def Skipped (u : SourceUnit) (d : DeclId) : Prop :=
  (∃ params body, u.declKind? d = some (.function params body)) ∧ u.definition? d = none

def IsRecord (u : SourceUnit) (d : DeclId) : Prop :=
  ∃ tag fields definition, u.declKind? d = some (.record tag fields definition)

end SourceUnit

namespace Job

variable {j : Job}

/-- The four things that a declaration of the top level can be. -/
theorem siteAgenda_cases (j : Job) (site : Nat) (d : DeclId) :
    (∃ params body, j.unit.definition? d = some (params, body) ∧
      j.siteAgenda site d = j.functionAgenda site d params body) ∨
    (j.unit.Skipped d ∧ j.siteAgenda site d = [.mark (.skip d)]) ∨
    (j.unit.IsRecord d ∧ j.siteAgenda site d =
      if j.options.visitRecords then [.visit (.record (j.unit.recordDefinition d))] else []) ∨
    (j.unit.definition? d = none ∧ ¬ j.unit.Skipped d ∧ ¬ j.unit.IsRecord d ∧
      j.siteAgenda site d = []) := by
  cases hd : j.unit.decl? d with
  | none =>
      simp [siteAgenda, SourceUnit.definition?, SourceUnit.Skipped, SourceUnit.IsRecord,
        SourceUnit.declKind?, hd]
  | some decl =>
      cases hk : decl.kind with
      | function params body =>
          cases hDef : decl.definition? with
          | some definition =>
              refine Or.inl ⟨definition.1, definition.2, ?_, ?_⟩
              · simp [SourceUnit.definition?, hd, hDef]
              · simp [siteAgenda, hd, hk, hDef]
          | none =>
              refine Or.inr (Or.inl ⟨⟨⟨params, body, ?_⟩, ?_⟩, ?_⟩)
              · simp [SourceUnit.declKind?, hd, hk]
              · simp [SourceUnit.definition?, hd, hDef]
              · simp [siteAgenda, hd, hk, hDef]
      | record tag fields definition =>
          refine Or.inr (Or.inr (Or.inl ⟨⟨tag, fields, definition, ?_⟩, ?_⟩))
          · simp [SourceUnit.declKind?, hd, hk]
          · simp [siteAgenda, hd, hk]
      | _ =>
          simp [siteAgenda, SourceUnit.definition?, SourceUnit.Skipped, SourceUnit.IsRecord,
            SourceUnit.declKind?, Decl.definition?, hd, hk]

theorem declKind?_of_definition? {u : SourceUnit} {d : DeclId} {params : List DeclId} {body : StmtId}
    (h : u.definition? d = some (params, body)) :
    u.declKind? d = some (.function params (some body)) := by
  obtain ⟨decl, hd, hDef⟩ := Option.bind_eq_some_iff.mp h
  unfold Decl.definition? at hDef
  split at hDef
  · next ps b hk =>
      split at hDef
      · cases hDef
        simp [SourceUnit.declKind?, hd, hk]
      · cases hDef
  · cases hDef

theorem definition?_of_isRecord {u : SourceUnit} {d : DeclId} (h : u.IsRecord d) : u.definition? d = none := by
  obtain ⟨tag, fields, definition, hk⟩ := h
  cases hDef : u.definition? d with
  | none => rfl
  | some definition => cases hk.symm.trans (declKind?_of_definition? hDef)

theorem not_skipped_of_isRecord {u : SourceUnit} {d : DeclId} (h : u.IsRecord d) : ¬ u.Skipped d := by
  obtain ⟨tag, fields, definition, hk⟩ := h
  rintro ⟨⟨params, body, hk'⟩, -⟩
  cases hk.symm.trans hk'

theorem siteAgenda_of_definition {d : DeclId} {params : List DeclId} {body : StmtId}
    (h : j.unit.definition? d = some (params, body)) (site : Nat) :
    j.siteAgenda site d = j.functionAgenda site d params body := by
  obtain ⟨params', body', h', hs⟩ | ⟨⟨_, h'⟩, _⟩ | ⟨⟨tag, fields, definition, hk⟩, _⟩ | ⟨h', _⟩ :=
    j.siteAgenda_cases site d
  · cases h.symm.trans h'
    exact hs
  · cases h.symm.trans h'
  · cases hk.symm.trans (declKind?_of_definition? h)
  · cases h.symm.trans h'

theorem siteAgenda_of_skipped {d : DeclId} (h : j.unit.Skipped d) (site : Nat) :
    j.siteAgenda site d = [.mark (.skip d)] := by
  obtain ⟨params', body', h', _⟩ | ⟨_, hs⟩ | ⟨⟨tag, fields, definition, hk⟩, _⟩ | ⟨_, h', _⟩ :=
    j.siteAgenda_cases site d
  · cases h.2.symm.trans h'
  · exact hs
  · obtain ⟨params, body, hk'⟩ := h.1
    cases hk.symm.trans hk'
  · exact absurd h h'

theorem siteAgenda_of_record {d : DeclId} (h : j.unit.IsRecord d) (site : Nat) :
    j.siteAgenda site d =
      if j.options.visitRecords then [.visit (.record (j.unit.recordDefinition d))] else [] := by
  obtain ⟨tag, fields, definition, hk⟩ := h
  obtain ⟨params', body', h', _⟩ | ⟨⟨⟨params, body, hk'⟩, _⟩, _⟩ | ⟨_, hs⟩ | ⟨_, _, h', _⟩ :=
    j.siteAgenda_cases site d
  · cases hk.symm.trans (declKind?_of_definition? h')
  · cases hk.symm.trans hk'
  · exact hs
  · exact absurd ⟨tag, fields, definition, hk⟩ h'

/-- Two jobs on one unit that differ at a function of the top level by a renaming differ by it at every declaration
there, if the renaming spares skipped functions and records. -/
theorem siteAgenda_map {j' : Job} {f : Item Entity Mark → Item Entity Mark} {site site' : Nat} {d : DeclId}
    (hUnit : j'.unit = j.unit) (hOptions : j'.options = j.options)
    (hFunction : ∀ params body,
      j'.functionAgenda site' d params body = (j.functionAgenda site d params body).map f)
    (hSkip : f (.mark (.skip d)) = .mark (.skip d)) (hRecord : ∀ r, f (.visit (.record r)) = .visit (.record r)) :
    j'.siteAgenda site' d = (j.siteAgenda site d).map f := by
  rw [siteAgenda, siteAgenda, hUnit, hOptions]
  cases j.unit.decl? d with
  | none => rfl
  | some decl =>
      cases hk : decl.kind with
      | function params body =>
          cases hDef : decl.definition? with
          | none => simp only [hk, hDef, List.map_cons, List.map_nil, hSkip]
          | some definition => simp only [hk, hDef, hFunction]
      | record tag fields definition =>
          simp only [hk]
          split
          · rw [List.map_singleton, hRecord]
          · rfl
      | _ => simp only [hk, List.map_nil]

@[simp] theorem requested_flowAgenda (j : Job) (d : DeclId) :
    requested (j.flowAgenda d) = (List.range (j.blocks d).length).map (.block d ·) := by
  unfold flowAgenda blocks
  split
  · cases j.flow d with
    | ok g => exact requested_map_visit _ _
    | error e => rfl
  · rfl

theorem mem_itemMarks_flowAgenda {d : DeclId} {m : Mark} : m ∈ itemMarks (j.flowAgenda d) ↔
    j.options.flowBlocks = true ∧ ∃ e, j.flow d = .error e ∧ m = .noFlow d e := by
  unfold flowAgenda
  split
  · next hWanted =>
      cases hf : j.flow d with
      | ok g => simp
      | error e => simp [hWanted]
  · next hWanted => simp [hWanted]

/-- What visiting a function asks for before its flow. -/
def bodyAgenda (site : Nat) (d : DeclId) (params : List DeclId) (body : StmtId) : List (Item Entity Mark) :=
  params.flatMap (fun p => [.visit (.decl p), .mark (.claim (.decl p))]) ++
    [.visit (.stmt body), .mark (.claim (.function site d))]

theorem functionAgenda_split (j : Job) (site : Nat) (d : DeclId) (params : List DeclId) (body : StmtId) :
    j.functionAgenda site d params body =
      bodyAgenda site d params body ++ (j.flowAgenda d ++ [.visit (.function site d)]) :=
  List.append_assoc ..

theorem requested_bodyAgenda (site : Nat) (d : DeclId) (params : List DeclId) (body : StmtId) :
    requested (bodyAgenda site d params body) = params.map .decl ++ [.stmt body] := by
  rw [bodyAgenda, requested_append, requested_flatMap, List.map_eq_flatMap]
  rfl

theorem requested_functionAgenda (j : Job) (site : Nat) (d : DeclId) (params : List DeclId)
    (body : StmtId) : requested (j.functionAgenda site d params body) =
      params.map .decl ++ [.stmt body] ++ (List.range (j.blocks d).length).map (.block d ·) ++
        [.function site d] := by
  rw [functionAgenda_split, requested_append, requested_append, requested_bodyAgenda, requested_flowAgenda,
    List.append_assoc (params.map _ ++ _)]
  rfl

theorem itemMarks_functionAgenda (j : Job) (site : Nat) (d : DeclId) (params : List DeclId)
    (body : StmtId) : itemMarks (j.functionAgenda site d params body) =
      params.map (fun p => .claim (.decl p)) ++ [.claim (.function site d)] ++
        itemMarks (j.flowAgenda d) := by
  have hParams : itemMarks (params.flatMap fun p =>
      [(Item.visit (.decl p) : Item Entity Mark), .mark (.claim (.decl p))]) =
        params.map fun p => .claim (.decl p) := by
    rw [itemMarks_flatMap, List.map_eq_flatMap]
    rfl
  simp [functionAgenda, hParams]

/-- Statements and definitions claim in their own agenda, the others at the top level or not at all. -/
def claimsItself (j : Job) : Entity → Bool
  | .stmt s => (j.unit.stmt? s).isSome
  | .record _ | .enum _ | .typedef _ => true
  | .decl _ | .block .. | .function .. => false

theorem itemMarks_agenda (j : Job) (e : Entity) :
    itemMarks (j.agenda e) = if j.claimsItself e then [.claim e] else [] := by
  cases e with
  | stmt s => cases h : j.unit.stmt? s <;> simp [agenda, claimsItself, h]
  | block f i => cases h : j.block? f i <;> simp [agenda, claimsItself, h]
  | _ => simp [agenda, claimsItself]

/-- A defined function stands at a position of the top level. -/
def Visits (j : Job) (site : Nat) (d : DeclId) (params : List DeclId) (body : StmtId) : Prop :=
  j.unit.topLevel[site]? = some d ∧ j.unit.definition? d = some (params, body)

theorem mem_topFunctions_iff {site : Nat} {d : DeclId} :
    (site, d) ∈ j.topFunctions ↔ ∃ params body, j.Visits site d params body := by
  rw [topFunctions, List.mem_filterMap]
  constructor
  · rintro ⟨⟨d', site'⟩, hd, hDef⟩
    obtain ⟨⟨params, body⟩, hDefinition, hEq⟩ := Option.map_eq_some_iff.mp hDef
    cases hEq
    exact ⟨params, body, List.mem_zipIdx_iff_getElem?.mp hd, hDefinition⟩
  · rintro ⟨params, body, hd, hDefinition⟩
    exact ⟨(d, site), List.mem_zipIdx_iff_getElem?.mpr hd, Option.map_eq_some_iff.mpr ⟨_, hDefinition, rfl⟩⟩

theorem mem_requested_program_iff {e : Entity} : e ∈ requested j.program ↔
    ∃ site d, j.unit.topLevel[site]? = some d ∧ e ∈ requested (j.siteAgenda site d) := by
  rw [program, requested_flatMap, List.mem_flatMap]
  constructor
  · intro h
    obtain ⟨⟨d, site⟩, hd, he⟩ := h
    exact ⟨site, d, List.mem_zipIdx_iff_getElem?.mp hd, he⟩
  · intro h
    obtain ⟨site, d, hd, he⟩ := h
    exact ⟨(d, site), List.mem_zipIdx_iff_getElem?.mpr hd, he⟩

theorem mem_itemMarks_program_iff {m : Mark} : m ∈ itemMarks j.program ↔
    ∃ site d, j.unit.topLevel[site]? = some d ∧ m ∈ itemMarks (j.siteAgenda site d) := by
  rw [program, itemMarks_flatMap, List.mem_flatMap]
  constructor
  · intro h
    obtain ⟨⟨d, site⟩, hd, he⟩ := h
    exact ⟨site, d, List.mem_zipIdx_iff_getElem?.mp hd, he⟩
  · intro h
    obtain ⟨site, d, hd, he⟩ := h
    exact ⟨(d, site), List.mem_zipIdx_iff_getElem?.mpr hd, he⟩

/-- What the top level asks for: parameters, bodies, blocks and nodes of the defined functions, and the
definitions of the records. -/
inductive Starts (j : Job) : Entity → Prop
  | param {site : Nat} {d p : DeclId} {params : List DeclId} {body : StmtId} :
      j.Visits site d params body → p ∈ params → Starts j (.decl p)
  | body {site : Nat} {d : DeclId} {params : List DeclId} {body : StmtId} :
      j.Visits site d params body → Starts j (.stmt body)
  | block {site i : Nat} {d : DeclId} {params : List DeclId} {body : StmtId} :
      j.Visits site d params body → i < (j.blocks d).length → Starts j (.block d i)
  | function {site : Nat} {d : DeclId} {params : List DeclId} {body : StmtId} :
      j.Visits site d params body → Starts j (.function site d)
  | record {d : DeclId} : d ∈ j.unit.topLevel → j.unit.IsRecord d → j.options.visitRecords = true →
      Starts j (.record (j.unit.recordDefinition d))

theorem mem_requested_program {e : Entity} : e ∈ requested j.program ↔ j.Starts e := by
  rw [mem_requested_program_iff]
  constructor
  · intro h
    obtain ⟨site, d, hd, he⟩ := h
    obtain ⟨params, body, hDef, hs⟩ | ⟨_, hs⟩ | ⟨hRecord, hs⟩ | ⟨_, _, _, hs⟩ := j.siteAgenda_cases site d
    · have hVisits : j.Visits site d params body := ⟨hd, hDef⟩
      simp only [hs, requested_functionAgenda, List.mem_append, List.mem_map, List.mem_singleton,
        List.mem_range, or_assoc] at he
      rcases he with ⟨p, hp, rfl⟩ | rfl | ⟨i, hi, rfl⟩ | rfl
      · exact .param hVisits hp
      · exact .body hVisits
      · exact .block hVisits hi
      · exact .function hVisits
    · rw [hs] at he
      cases he
    · rw [hs] at he
      split at he
      · next hv =>
          cases List.mem_singleton.mp he
          exact .record (List.mem_of_getElem? hd) hRecord hv
      · cases he
    · rw [hs] at he
      cases he
  · intro h
    have hFunction : ∀ {site d params body}, j.Visits site d params body →
        e ∈ requested (j.functionAgenda site d params body) →
        ∃ site d, j.unit.topLevel[site]? = some d ∧ e ∈ requested (j.siteAgenda site d) := by
      intro site d params body hVisits he
      exact ⟨site, d, hVisits.1, siteAgenda_of_definition hVisits.2 site ▸ he⟩
    cases h with
    | param hVisits hp => exact hFunction hVisits (by simp [requested_functionAgenda, hp])
    | body hVisits => exact hFunction hVisits (by simp [requested_functionAgenda])
    | block hVisits hi => exact hFunction hVisits (by simp [requested_functionAgenda, hi])
    | function hVisits => exact hFunction hVisits (by simp [requested_functionAgenda])
    | @record d hd hRecord hv =>
        obtain ⟨site, hSite⟩ := List.getElem?_of_mem hd
        refine ⟨site, d, hSite, ?_⟩
        rw [siteAgenda_of_record hRecord, if_pos hv]
        exact List.mem_singleton.mpr rfl

/-- What the agenda of an entity asks for. -/
inductive Asks (j : Job) : Entity → Entity → Prop
  | child {s c : StmtId} {stmt : Stmt} : j.unit.stmt? s = some stmt → c ∈ stmt.children →
      Asks j (.stmt s) (.stmt c)
  | mention {s : StmtId} {d : DeclId} {stmt : Stmt} : j.unit.stmt? s = some stmt →
      d ∈ stmt.decls ++ stmt.referenced.toList → Asks j (.stmt s) (.decl d)
  | valueRecord {d r : DeclId} : j.unit.recordOf? d = some r → Asks j (.decl d) (.record r)
  | valueAlias {d a : DeclId} : j.unit.aliasOf? d = some a → Asks j (.decl d) (.typedef a)
  | fieldRecord {d r : DeclId} {t : TypeId} : t ∈ j.unit.fieldTypes d →
      j.unit.referencedRecord t = some r → Asks j (.record d) (.record r)
  | fieldSignature {d r : DeclId} {t : TypeId} : t ∈ j.unit.fieldTypes d →
      r ∈ j.unit.signatureRecords t → Asks j (.record d) (.record r)
  | fieldAlias {d a : DeclId} {t : TypeId} : t ∈ j.unit.fieldTypes d →
      j.unit.referencedAlias t = some a → Asks j (.record d) (.typedef a)
  | fieldEnum {d c : DeclId} {t : TypeId} : t ∈ j.unit.fieldTypes d →
      j.unit.namedEnum t = some c → Asks j (.record d) (.enum c)
  | blockStmt {f : DeclId} {i : Nat} {b : FlowBlock} {s : StmtId} : j.block? f i = some b →
      s ∈ b.statements → Asks j (.block f i) (.stmt s)
  | blockTarget {f : DeclId} {i t : Nat} {b : FlowBlock} : j.block? f i = some b →
      t ∈ b.targets → Asks j (.block f i) (.block f t)

theorem mem_requested_agenda_record {d : DeclId} {e : Entity} :
    e ∈ requested (j.agenda (.record d)) ↔
      ∃ t ∈ j.unit.fieldTypes d, e ∈ j.unit.fieldEntities t := by
  simp [agenda]

theorem mem_requested_agenda {e e' : Entity} : e' ∈ requested (j.agenda e) ↔ j.Asks e e' := by
  constructor
  · intro h
    cases e with
    | stmt s =>
        cases hs : j.unit.stmt? s with
        | none => simp [agenda, hs] at h
        | some stmt =>
            simp only [agenda, hs, requested_append, requested_map_visit, requested_cons_mark,
              requested_nil, List.append_nil, List.append_assoc, List.mem_append, List.mem_map] at h
            rcases h with ⟨c, hc, rfl⟩ | ⟨d, hd, rfl⟩ | ⟨d, hd, rfl⟩
            · exact .child hs hc
            · exact .mention hs (List.mem_append_left _ hd)
            · exact .mention hs (List.mem_append_right _ hd)
    | decl d =>
        simp only [agenda, requested_append, requested_map_visit, List.mem_append, List.mem_map,
          Option.mem_toList] at h
        rcases h with ⟨r, hr, rfl⟩ | ⟨a, ha, rfl⟩
        · exact .valueRecord hr
        · exact .valueAlias ha
    | record d =>
        obtain ⟨t, ht, h⟩ := mem_requested_agenda_record.mp h
        simp only [SourceUnit.fieldEntities, List.mem_append, List.mem_map, Option.mem_toList] at h
        rcases h with ((⟨r, hr, rfl⟩ | ⟨a, ha, rfl⟩) | ⟨r, hr, rfl⟩) | ⟨c, hc, rfl⟩
        · exact .fieldRecord ht hr
        · exact .fieldAlias ht ha
        · exact .fieldSignature ht hr
        · exact .fieldEnum ht hc
    | block f i =>
        cases hb : j.block? f i with
        | none => simp [agenda, hb] at h
        | some b =>
            simp only [agenda, hb, requested_append, requested_map_visit, List.mem_append,
              List.mem_map] at h
            rcases h with ⟨s, hs, rfl⟩ | ⟨t, ht, rfl⟩
            · exact .blockStmt hb hs
            · exact .blockTarget hb ht
    | enum d => cases h
    | typedef d => cases h
    | function site d => cases h
  · intro h
    cases h with
    | child hs hc => simp [agenda, hs, hc]
    | mention hs hd => simpa [agenda, hs] using hd
    | valueRecord hr => simp [agenda, hr]
    | valueAlias ha => simp [agenda, ha]
    | fieldRecord ht hr => exact mem_requested_agenda_record.mpr ⟨_, ht, by simp [SourceUnit.fieldEntities, hr]⟩
    | fieldSignature ht hr =>
        exact mem_requested_agenda_record.mpr ⟨_, ht, by simp [SourceUnit.fieldEntities, hr]⟩
    | fieldAlias ht ha => exact mem_requested_agenda_record.mpr ⟨_, ht, by simp [SourceUnit.fieldEntities, ha]⟩
    | fieldEnum ht hc => exact mem_requested_agenda_record.mpr ⟨_, ht, by simp [SourceUnit.fieldEntities, hc]⟩
    | blockStmt hb hs => simp [agenda, hb, hs]
    | blockTarget hb ht => simp [agenda, hb, ht]

/-- The marks that the top level leaves itself. -/
inductive Leaves (j : Job) : Mark → Prop
  | param {site : Nat} {d p : DeclId} {params : List DeclId} {body : StmtId} :
      j.Visits site d params body → p ∈ params → Leaves j (.claim (.decl p))
  | function {site : Nat} {d : DeclId} {params : List DeclId} {body : StmtId} :
      j.Visits site d params body → Leaves j (.claim (.function site d))
  | noFlow {site : Nat} {d : DeclId} {params : List DeclId} {body : StmtId} {e : FlowError} :
      j.Visits site d params body → j.options.flowBlocks = true → j.flow d = .error e →
      Leaves j (.noFlow d e)
  | skip {d : DeclId} : d ∈ j.unit.topLevel → j.unit.Skipped d → Leaves j (.skip d)

theorem mem_itemMarks_program {m : Mark} : m ∈ itemMarks j.program ↔ j.Leaves m := by
  rw [mem_itemMarks_program_iff]
  constructor
  · intro h
    obtain ⟨site, d, hd, hm⟩ := h
    obtain ⟨params, body, hDef, hs⟩ | ⟨hSkip, hs⟩ | ⟨_, hs⟩ | ⟨_, _, _, hs⟩ := j.siteAgenda_cases site d
    · have hVisits : j.Visits site d params body := ⟨hd, hDef⟩
      simp only [hs, itemMarks_functionAgenda, List.mem_append, List.mem_map, List.mem_singleton,
        mem_itemMarks_flowAgenda, or_assoc] at hm
      rcases hm with ⟨p, hp, rfl⟩ | rfl | ⟨hWanted, e, he, rfl⟩
      · exact .param hVisits hp
      · exact .function hVisits
      · exact .noFlow hVisits hWanted he
    · rw [hs] at hm
      cases List.mem_singleton.mp hm
      exact .skip (List.mem_of_getElem? hd) hSkip
    · rw [hs] at hm
      split at hm <;> cases hm
    · rw [hs] at hm
      cases hm
  · intro h
    have hFunction : ∀ {site d params body}, j.Visits site d params body →
        m ∈ itemMarks (j.functionAgenda site d params body) →
        ∃ site d, j.unit.topLevel[site]? = some d ∧ m ∈ itemMarks (j.siteAgenda site d) := by
      intro site d params body hVisits hm
      exact ⟨site, d, hVisits.1, siteAgenda_of_definition hVisits.2 site ▸ hm⟩
    cases h with
    | param hVisits hp => exact hFunction hVisits (by simp [itemMarks_functionAgenda, hp])
    | function hVisits => exact hFunction hVisits (by simp [itemMarks_functionAgenda])
    | noFlow hVisits hWanted he =>
        exact hFunction hVisits (by simp [itemMarks_functionAgenda, mem_itemMarks_flowAgenda, hWanted, he])
    | @skip d hd hSkip =>
        obtain ⟨site, hSite⟩ := List.getElem?_of_mem hd
        refine ⟨site, d, hSite, ?_⟩
        rw [siteAgenda_of_skipped hSkip]
        exact List.mem_singleton.mpr rfl

end Job

end UnitGraph
