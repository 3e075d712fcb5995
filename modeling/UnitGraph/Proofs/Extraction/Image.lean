import UnitGraph.Proofs.Extraction.Exclusivity
import UnitGraph.Proofs.Extraction.InRange
import UnitGraph.Proofs.Unit.Walks

/-!
# Nodes as images of the unit

Whatever a node is to link to has been entered by the end, so no link is lost and none leads past the arena.
Main statements: the links of a statement, a declaration or a function are the nodes of what the unit names
there, in order; and a record lists the nodes of all that its fields refer to.
-/
namespace UnitGraph

/-- A token is the last one of the stream at a location. -/
structure SourceUnit.LastTokenAt (u : SourceUnit) (location : Nat) (t : Token) : Prop where
  token : ∃ x, u.lexemes[t.index]? = some x ∧ t = Token.ofLexeme t.index x
  located : t.location = location
  last : ∀ i x, t.index < i → u.lexemes[i]? = some x → x.location ≠ location

theorem SourceUnit.nameToken?_eq_some_iff {u : SourceUnit} {d : DeclId} {decl : Decl} {t : Token}
    (hd : u.decl? d = some decl) : u.nameToken? d = some t ↔ u.LastTokenAt decl.location t := by
  have hMem : ∀ t, t ∈ u.ledger.tokens ↔
      ∃ x, u.lexemes[t.index]? = some x ∧ t = Token.ofLexeme t.index x := by
    intro t
    refine ⟨Job.lexeme_of_mem_ledger, fun h => ?_⟩
    obtain ⟨x, hx, ht⟩ := h
    rw [ledger, Ledger.tokens_ofLexemes, List.mem_iff_getElem?]
    exact ⟨t.index, by rw [List.getElem?_mapIdx, hx, Option.map_some, ← ht]⟩
  rw [nameToken?, hd, Option.bind_some, Ledger.tokenAt?_eq_some_iff]
  constructor
  · intro h
    obtain ⟨ht, hLocation, hLast⟩ := h
    refine ⟨(hMem t).mp ht, hLocation, fun i x hi hx => ?_⟩
    exact hLast (Token.ofLexeme i x) ((hMem _).mpr ⟨x, hx, rfl⟩) hi
  · intro h
    refine ⟨(hMem t).mpr h.token, h.located, fun t' ht' hlt => ?_⟩
    obtain ⟨x, hx, hEq⟩ := (hMem t').mp ht'
    rw [hEq]
    exact h.last t'.index x hlt hx

namespace Job

variable (j : Job)

/-- What a statement node links to: the nodes of its statement's children and declarations, and the node of
what the statement reads. -/
structure StmtImage (stmt : Stmt) (n : StmtNode) : Prop where
  children : n.children.map some = stmt.children.map (fun c => j.registry.get? (.stmt c)) ++
    stmt.decls.map fun d => j.registry.get? (.decl d)
  references : n.references.map some = stmt.referenced.toList.map fun d => j.registry.get? (.decl d)

/-- What a declaration node shows of its type: the spelling and the nodes that a value's type leads to, or
the class of what a typedef names, or nothing. -/
inductive TypeImage (decl : Decl) (n : DeclNode) : Prop
  | value {t : TypeId} {entry : TypeEntry} : decl.kind.isValue = true → decl.type = some t →
      j.unit.type? t = some entry → n.type = entry.spelling →
      n.record.map some = (j.unit.referencedRecord t).map (fun r => j.registry.get? (.record r)) →
      n.typedef.map some = (j.unit.referencedAlias t).map (fun a => j.registry.get? (.typedef a)) →
      TypeImage decl n
  | typedef {t : TypeId} {entry : TypeEntry} : decl.kind = .typedef t → j.unit.type? t = some entry →
      n.type = entry.kind.className → n.record = none → n.typedef = none → TypeImage decl n
  | other : decl.kind.isValue = false ∨ decl.type = none → (∀ t, decl.kind ≠ .typedef t) →
      n.type = "" → n.record = none → n.typedef = none → TypeImage decl n

/-- What a function node links to: the nodes of its parameters, its body and its flow blocks. -/
structure FunctionImage (d : DeclId) (params : List DeclId) (body : StmtId) (n : FunctionNode) : Prop where
  args : n.args.map some = params.map fun p => j.registry.get? (.decl p)
  entry : some n.entry = j.registry.get? (.stmt body)
  blocks : n.blocks.map some = (List.range (j.blocks d).length).map fun i => j.registry.get? (.block d i)

/-- What a record node lists, going over the types of its fields in order. -/
structure RecordImage (r : DeclId) (n : RecordNode) : Prop where
  records : n.records.map some = (j.unit.fieldTypes r).flatMap fun t =>
    ((j.unit.referencedRecord t).toList ++ match j.unit.functionPointer t with
      | some signature => (signature.result :: signature.params).filterMap j.unit.referencedRecord
      | none => []).map fun d => j.registry.get? (.record d)
  typedefs : n.typedefs.map some =
    ((j.unit.fieldTypes r).filterMap j.unit.referencedAlias).map fun d => j.registry.get? (.typedef d)
  enums : n.enums.map some =
    ((j.unit.fieldTypes r).filterMap j.unit.namedEnum).map fun d => j.registry.get? (.enum d)

variable {j}

/-- Links to entities that are met are links to their nodes. -/
theorem map_some_idOf {β : Type} {f : β → Entity} {xs : List β} (h : ∀ x ∈ xs, f x ∈ j.entities) :
    (xs.map fun x => j.idOf (f x)).map some = xs.map fun x => j.registry.get? (f x) := by
  rw [List.map_map]
  exact List.map_congr_left fun x hx => (registry_idOf (h x hx)).symm

theorem map_some_idOf? {β : Type} {f : β → Entity} {x : Option β} (h : ∀ b, x = some b → f b ∈ j.entities) :
    (x.map fun b => j.idOf (f b)).map some = x.map fun b => j.registry.get? (f b) := by
  cases x with
  | none => rfl
  | some b => exact congrArg some (registry_idOf (h b rfl)).symm

theorem stmt_image {s : StmtId} {stmt : Stmt} {id : NodeId} (hStmt : j.unit.stmt? s = some stmt)
    (hs : j.registry.get? (.stmt s) = some id) :
    ∃ n, j.codeGraph.arena.get? id = some (.stmt n) ∧ j.StmtImage stmt n := by
  have he := mem_entities_of_registry hs
  have hMention : ∀ d ∈ stmt.decls ++ stmt.referenced.toList, Entity.decl d ∈ j.entities :=
    fun d hd => (Asks.mention hStmt hd).mem_entities he
  refine ⟨_, arena_get?_of_registry hs, ?_, ?_⟩
  · rw [hStmt, Option.getD_some, List.map_append,
      map_some_idOf fun c hc => (Asks.child hStmt hc).mem_entities he,
      map_some_idOf fun d hd => hMention d (List.mem_append_left _ hd)]
  · rw [hStmt, Option.getD_some, map_some_idOf fun d hd => hMention d (List.mem_append_right _ hd)]

theorem valueType?_of_decl? {u : SourceUnit} {d : DeclId} {decl : Decl} (hd : u.decl? d = some decl) :
    u.valueType? d = if decl.kind.isValue then decl.type else none := by
  rw [SourceUnit.valueType?, hd, Option.bind_some]

theorem underlying?_of_decl? {u : SourceUnit} {d : DeclId} {decl : Decl} (hd : u.decl? d = some decl) :
    u.underlying? d = decl.kind.underlying? := by
  rw [SourceUnit.underlying?, SourceUnit.declKind?, hd, Option.map_some]
  cases decl.kind <;> rfl

theorem typeImage (h : j.unit.InRange) {d : DeclId} {decl : Decl} (hDecl : j.unit.decl? d = some decl)
    (he : .decl d ∈ j.entities) {n : DeclNode} (hType : n.type = j.unit.shownType d)
    (hRecord : n.record = (j.unit.recordOf? d).map (j.idOf <| .record ·))
    (hTypedef : n.typedef = (j.unit.aliasOf? d).map (j.idOf <| .typedef ·)) : j.TypeImage decl n := by
  have hEntry : ∀ t ∈ decl.kind.underlying?.toList ++ decl.type.toList, ∃ entry, j.unit.type? t = some entry :=
    fun t ht => SourceUnit.exists_type (h.declTypes decl (SourceUnit.mem_decls_of_decl? hDecl) t ht)
  have hLinks : n.record.map some = (j.unit.recordOf? d).map (fun r => j.registry.get? (.record r)) ∧
      n.typedef.map some = (j.unit.aliasOf? d).map fun a => j.registry.get? (.typedef a) := by
    rw [hRecord, hTypedef]
    exact ⟨map_some_idOf? fun r hr => (Asks.valueRecord hr).mem_entities he,
      map_some_idOf? fun a ha => (Asks.valueAlias ha).mem_entities he⟩
  simp only [SourceUnit.recordOf?, SourceUnit.aliasOf?, valueType?_of_decl? hDecl] at hLinks
  rw [SourceUnit.shownType, underlying?_of_decl? hDecl, valueType?_of_decl? hDecl] at hType
  by_cases hValue : decl.kind.isValue = true
  · have hNone : decl.kind.underlying? = none := by
      cases hk : decl.kind with
      | typedef t => simp [hk, DeclKind.isValue] at hValue
      | _ => rfl
    rw [if_pos hValue] at hLinks
    rw [hNone, if_pos hValue] at hType
    cases ht : decl.type with
    | none =>
        rw [ht] at hLinks hType
        exact .other (.inr ht) (fun t hk => by simp [hk, DeclKind.isValue] at hValue) hType
          (Option.map_eq_none_iff.mp hLinks.1) (Option.map_eq_none_iff.mp hLinks.2)
    | some t =>
        obtain ⟨entry, hEntry⟩ := hEntry t (by simp [ht])
        rw [ht] at hLinks hType
        exact .value hValue ht hEntry (by simp [hType, SourceUnit.spellingOf, hEntry]) hLinks.1 hLinks.2
  · rw [if_neg hValue] at hLinks
    rw [if_neg hValue] at hType
    have hNone := And.imp Option.map_eq_none_iff.mp Option.map_eq_none_iff.mp hLinks
    cases hk : decl.kind with
    | typedef t =>
        obtain ⟨entry, hEntry⟩ := hEntry t (by simp [hk, DeclKind.underlying?])
        rw [hk] at hType
        exact .typedef hk hEntry (by simp [hType, DeclKind.underlying?, SourceUnit.typeKind?, hEntry])
          hNone.1 hNone.2
    | _ =>
        rw [hk] at hType
        exact .other (.inl (by simpa using hValue)) (by simp [hk]) hType hNone.1 hNone.2

theorem decl_image (h : j.unit.InRange) {d : DeclId} {decl : Decl} {id : NodeId}
    (hDecl : j.unit.decl? d = some decl) (hd : j.registry.get? (.decl d) = some id) :
    ∃ n, j.codeGraph.arena.get? id = some (.decl n) ∧
      (∀ t, n.nameToken = some t ↔ j.unit.LastTokenAt decl.location t) ∧ j.TypeImage decl n :=
  ⟨_, arena_get?_of_registry hd, fun _ => SourceUnit.nameToken?_eq_some_iff hDecl,
    typeImage h hDecl (mem_entities_of_registry hd) rfl rfl rfl⟩

theorem function_image {site : Nat} {d : DeclId} {params : List DeclId} {body : StmtId}
    (hVisits : j.Visits site d params body) :
    ∃ id n, j.registry.get? (.function site d) = some id ∧
      j.codeGraph.arena.get? id = some (.function n) ∧ j.FunctionImage d params body n := by
  obtain ⟨n, hn, hArgs, hEntry, hBlocks⟩ := function_node hVisits
  refine ⟨_, n, registry_idOf (Starts.function hVisits).mem_entities, hn, ?_, ?_, ?_⟩
  · rw [hArgs]
    exact map_some_idOf fun p hp => (Starts.param hVisits hp).mem_entities
  · rw [hEntry]
    exact (registry_idOf (Starts.body hVisits).mem_entities).symm
  · rw [hBlocks]
    exact map_some_idOf fun i hi => (Starts.block hVisits (List.mem_range.mp hi)).mem_entities

theorem record_image {r : DeclId} {id : NodeId} (hr : j.registry.get? (.record r) = some id) :
    ∃ n, j.codeGraph.arena.get? id = some (.record n) ∧ n.isTypedef = j.unit.isTypedefTarget r ∧
      j.RecordImage r n := by
  have he := mem_entities_of_registry hr
  refine ⟨_, arena_get?_of_registry hr, rfl, ?_, ?_, ?_⟩
  · rw [List.map_flatMap]
    refine List.flatMap_congr fun t ht => ?_
    have hSignature : j.unit.signatureRecords t = match j.unit.functionPointer t with
        | some signature => (signature.result :: signature.params).filterMap j.unit.referencedRecord
        | none => [] := by
      rw [SourceUnit.signatureRecords]
      cases j.unit.functionPointer t <;> rfl
    rw [← hSignature]
    refine map_some_idOf fun d hd => ?_
    rcases List.mem_append.mp hd with hd | hd
    · exact (Asks.fieldRecord ht (Option.mem_toList.mp hd)).mem_entities he
    · exact (Asks.fieldSignature ht hd).mem_entities he
  · refine map_some_idOf fun a ha => ?_
    obtain ⟨t, ht, ha⟩ := List.mem_filterMap.mp ha
    exact (Asks.fieldAlias ht ha).mem_entities he
  · refine map_some_idOf fun c hc => ?_
    obtain ⟨t, ht, hc⟩ := List.mem_filterMap.mp hc
    exact (Asks.fieldEnum ht hc).mem_entities he

/-- On every unit in range, whatever the frontend answers: the nodes of the unit's statements, declarations
and functions are their images. -/
theorem nodes_image (j : Job) (h : j.unit.InRange) :
    (∀ s stmt id, j.unit.stmt? s = some stmt → j.registry.get? (.stmt s) = some id →
      ∃ n, j.codeGraph.arena.get? id = some (.stmt n) ∧ j.StmtImage stmt n) ∧
    (∀ d decl id, j.unit.decl? d = some decl → j.registry.get? (.decl d) = some id →
      ∃ n, j.codeGraph.arena.get? id = some (.decl n) ∧
        (∀ t, n.nameToken = some t ↔ j.unit.LastTokenAt decl.location t) ∧ j.TypeImage decl n) ∧
    ∀ site d params body, j.Visits site d params body →
      ∃ id n, j.registry.get? (.function site d) = some id ∧
        j.codeGraph.arena.get? id = some (.function n) ∧ j.FunctionImage d params body n :=
  ⟨fun _ _ _ => stmt_image, fun _ _ _ => decl_image h, fun _ _ _ _ => function_image⟩

theorem nodes_image_cell : (cellJob true).unit.InRange ∧
    (∃ n, (cellJob true).codeGraph.arena.get? ⟨4⟩ = some (.stmt n) ∧ n.references.map some = [some ⟨1⟩]) ∧
    (∃ n, (cellJob true).codeGraph.arena.get? ⟨1⟩ = some (.decl n) ∧ n.record.map some = some (some ⟨0⟩)) ∧
    ∃ n, (cellJob true).codeGraph.arena.get? ⟨6⟩ = some (.function n) ∧ n.args.map some = [some ⟨1⟩] ∧
      n.entry = ⟨2⟩ := by
  obtain ⟨hStmts, hDecls, hFunctions⟩ := nodes_image (cellJob true) cellUnit_inRange
  refine ⟨cellUnit_inRange, ?_, ?_, ?_⟩
  · obtain ⟨n, hn, hImage⟩ := hStmts ⟨2⟩ _ ⟨4⟩ rfl (by decide)
    exact ⟨n, hn, hImage.references.trans (by decide)⟩
  · obtain ⟨n, hn, _, hImage⟩ := hDecls ⟨3⟩ _ ⟨1⟩ rfl (by decide)
    refine ⟨n, hn, ?_⟩
    cases hImage with
    | value _ ht _ _ hRecord _ =>
        cases ht
        exact hRecord.trans (by decide)
    | typedef hk _ _ _ _ => cases hk
    | other h _ _ _ _ => cases h <;> contradiction
  · obtain ⟨id, n, hId, hn, hImage⟩ := hFunctions 1 ⟨2⟩ [⟨3⟩] ⟨0⟩ ⟨rfl, rfl⟩
    have hSix : (cellJob true).registry.get? (.function 1 ⟨2⟩) = some ⟨6⟩ := by decide
    cases hSix.symm.trans hId
    exact ⟨n, hn, hImage.args.trans (by decide), Option.some.inj (hImage.entry.trans (by decide))⟩

/-- On every unit: the lists of a record node, and when it is marked as the target of a typedef. -/
theorem record_nodes_image (j : Job) (r : DeclId) (id : NodeId)
    (hr : j.registry.get? (.record r) = some id) :
    ∃ n, j.codeGraph.arena.get? id = some (.record n) ∧ j.RecordImage r n ∧
      (n.isTypedef = true ↔ ∃ d t t' r', j.unit.declKind? d = some (.typedef t) ∧
        Relation.ReflTransGen j.unit.SugarStep t t' ∧ j.unit.typeKind? t' = some (.record r') ∧
        j.unit.recordDefinition r' = j.unit.recordDefinition r) := by
  obtain ⟨n, hn, hTypedef, hImage⟩ := record_image hr
  exact ⟨n, hn, hImage, by rw [hTypedef, SourceUnit.isTypedefTarget_iff]⟩

theorem record_nodes_image_cell : (cellJob true).registry.get? (.record ⟨0⟩) = some ⟨0⟩ ∧
    ∃ n, (cellJob true).codeGraph.arena.get? ⟨0⟩ = some (.record n) ∧ n.records.map some = [some ⟨0⟩] := by
  have hNode : (cellJob true).registry.get? (.record ⟨0⟩) = some ⟨0⟩ := by decide
  obtain ⟨n, hn, hImage, _⟩ := record_nodes_image (cellJob true) ⟨0⟩ ⟨0⟩ hNode
  exact ⟨hNode, n, hn, hImage.records.trans (by decide)⟩

end Job

end UnitGraph
