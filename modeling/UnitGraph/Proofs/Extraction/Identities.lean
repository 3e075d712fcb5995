import UnitGraph.Proofs.Extraction.Canonical

/-!
# Nodes under other identities

What a node says of other nodes are their identities. If those of the entities that are met change, the nodes
change in their links only, and each link follows.
-/
namespace UnitGraph

/-- A node whose links lead to other identities. -/
def Node.mapIds (ρ : NodeId → NodeId) : Node → Node
  | .decl n => .decl { n with record := n.record.map ρ, typedef := n.typedef.map ρ }
  | .stmt n => .stmt { n with children := n.children.map ρ, references := n.references.map ρ }
  | .record n =>
      .record { n with records := n.records.map ρ, enums := n.enums.map ρ, typedefs := n.typedefs.map ρ }
  | .enum n => .enum n
  | .typedef n => .typedef n
  | .block n => .block { n with statements := n.statements.map ρ, successors := n.successors.map ρ }
  | .function n => .function { n with args := n.args.map ρ, entry := ρ n.entry, blocks := n.blocks.map ρ }

@[simp] theorem Node.mapIds_id (n : Node) : n.mapIds id = n := by
  cases n <;> simp [mapIds]

namespace Job

variable {j : Job} {ids ids' : Entity → NodeId} {ρ : NodeId → NodeId}

theorem map_mapIds {β : Type} {f : β → Entity} {xs : List β} (hIds : ∀ e ∈ j.entities, ids' e = ρ (ids e))
    (h : ∀ x ∈ xs, f x ∈ j.entities) : xs.map (fun x => ids' (f x)) = (xs.map fun x => ids (f x)).map ρ := by
  rw [List.map_map]
  exact List.map_congr_left fun x hx => hIds _ (h x hx)

theorem map_mapIds? {β : Type} {f : β → Entity} {x : Option β} (hIds : ∀ e ∈ j.entities, ids' e = ρ (ids e))
    (h : ∀ b, x = some b → f b ∈ j.entities) : x.map (fun b => ids' (f b)) = (x.map fun b => ids (f b)).map ρ := by
  cases x with
  | none => rfl
  | some b => exact congrArg some (hIds _ (h b rfl))

theorem nodeOf_record_mapIds (hIds : ∀ e ∈ j.entities, ids' e = ρ (ids e)) {d : DeclId}
    (he : .record d ∈ j.entities) (tokens : List Token) :
    j.nodeOf ids' tokens (.record d) = (j.nodeOf ids tokens (.record d)).mapIds ρ := by
  have hRecords : ∀ t ∈ j.unit.fieldTypes d, ∀ r ∈
      (j.unit.referencedRecord t).toList ++ j.unit.signatureRecords t, Entity.record r ∈ j.entities := by
    intro t ht r hr
    rcases List.mem_append.mp hr with hr | hr
    · exact (Asks.fieldRecord ht (Option.mem_toList.mp hr)).mem_entities he
    · exact (Asks.fieldSignature ht hr).mem_entities he
  have hEnums : ∀ c ∈ (j.unit.fieldTypes d).filterMap j.unit.namedEnum, Entity.enum c ∈ j.entities := by
    intro c hc
    obtain ⟨t, ht, hc⟩ := List.mem_filterMap.mp hc
    exact (Asks.fieldEnum ht hc).mem_entities he
  have hTypedefs : ∀ a ∈ (j.unit.fieldTypes d).filterMap j.unit.referencedAlias,
      Entity.typedef a ∈ j.entities := by
    intro a ha
    obtain ⟨t, ht, ha⟩ := List.mem_filterMap.mp ha
    exact (Asks.fieldAlias ht ha).mem_entities he
  simp only [nodeOf, Node.mapIds, map_mapIds hIds hEnums, map_mapIds hIds hTypedefs, List.map_flatMap]
  congr 2
  exact List.flatMap_congr fun t ht => map_mapIds hIds (hRecords t ht)

/-- The links of a node that is met follow the identities of what they lead to. -/
theorem nodeOf_mapIds (hIds : ∀ e ∈ j.entities, ids' e = ρ (ids e)) {e : Entity} (he : e ∈ j.entities)
    (tokens : List Token) : j.nodeOf ids' tokens e = (j.nodeOf ids tokens e).mapIds ρ := by
  cases e with
  | stmt s =>
      cases hs : j.unit.stmt? s with
      | none => simp only [nodeOf, hs]; rfl
      | some stmt =>
          have hMention : ∀ d ∈ stmt.decls ++ stmt.referenced.toList, Entity.decl d ∈ j.entities :=
            fun d hd => (Asks.mention hs hd).mem_entities he
          simp only [nodeOf, hs, Option.getD_some, Node.mapIds, List.map_append,
            map_mapIds hIds fun c hc => (Asks.child hs hc).mem_entities he,
            map_mapIds hIds fun d hd => hMention d (List.mem_append_left _ hd),
            map_mapIds hIds fun d hd => hMention d (List.mem_append_right _ hd)]
  | decl d =>
      simp only [nodeOf, Node.mapIds, map_mapIds? hIds fun r hr => (Asks.valueRecord hr).mem_entities he,
        map_mapIds? hIds fun a ha => (Asks.valueAlias ha).mem_entities he]
  | record d => exact nodeOf_record_mapIds hIds he tokens
  | enum d => rfl
  | typedef d => rfl
  | block f i =>
      cases hb : j.block? f i with
      | none => simp only [nodeOf, hb]; rfl
      | some b =>
          simp only [nodeOf, hb, Option.getD_some, Node.mapIds,
            map_mapIds hIds fun s hs => (Asks.blockStmt hb hs).mem_entities he,
            map_mapIds hIds fun t ht => (Asks.blockTarget hb ht).mem_entities he]
  | function site d =>
      obtain ⟨params, body, hVisits⟩ := visits_of_mem_entities he
      obtain ⟨decl, hDecl, hDef⟩ := Option.bind_eq_some_iff.mp hVisits.2
      simp only [nodeOf, hDecl, Option.getD_some, hDef, Node.mapIds,
        hIds _ (Starts.body hVisits).mem_entities,
        map_mapIds hIds fun p hp => (Starts.param hVisits hp).mem_entities,
        map_mapIds hIds fun i hi => (Starts.block hVisits (List.mem_range.mp hi)).mem_entities]

/-- A node that is met depends on the identities of what is met alone. -/
theorem nodeOf_congr (hIds : ∀ e ∈ j.entities, ids' e = ids e) {e : Entity} (he : e ∈ j.entities)
    (tokens : List Token) : j.nodeOf ids' tokens e = j.nodeOf ids tokens e := by
  have h := nodeOf_mapIds (fun e he => (hIds e he).trans (id_eq (ids e)).symm) he tokens
  rwa [Node.mapIds_id] at h

/-- The functions of the top level follow the identities of what is met. -/
theorem functions_mapIds (hIds : ∀ e ∈ j.entities, ids' e = ρ (j.idOf e)) :
    (j.topFunctions.map fun f => ids' (.function f.1 f.2)) = j.codeGraph.functions.map ρ := by
  refine map_mapIds (f := fun f : Nat × DeclId => Entity.function f.1 f.2) hIds fun f hf => ?_
  have hMem : .function f.1 f.2 ∈ j.entities.filter isFunction := by
    rw [filter_entities]
    exact List.mem_map_of_mem (f := fun f : Nat × DeclId => Entity.function f.1 f.2) hf
  exact (List.mem_filter.mp hMem).1

/-- The records of the top level follow the identities of what is met. -/
theorem records_mapIds (hIds : ∀ e ∈ j.entities, ids' e = ρ (j.idOf e)) :
    (j.topRecords.map fun r => ids' (.record r)) = j.codeGraph.records.map ρ :=
  map_mapIds hIds fun _ => record_mem_entities_of_topRecords

end Job

end UnitGraph
