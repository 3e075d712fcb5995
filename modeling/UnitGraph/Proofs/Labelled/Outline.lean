import UnitGraph.Labelled.Graph
import UnitGraph.Proofs.Extraction.InRange
import UnitGraph.Proofs.Extraction.Links
import UnitGraph.Proofs.Extraction.Outline

/-!
# Labelled graphs of outlines

Without token edges a labelled graph is a matter of outlines: a walk presents the nodes of an arena and of its
outline in the same order, and what a node contributes can be read off the outline. Main statement: units with
the same outline and the same flow graphs yield code graphs with the same outline, and the same labelled graphs
of every flavor without token edges.
-/
namespace UnitGraph

open Traversal

@[simp] theorem Node.links_outline (n : Node) : n.outline.links = n.links := by
  cases n <;> rfl

namespace Arena

variable (a : Arena)

@[simp] theorem get?_outline (x : NodeId) : a.outline.get? x = (a.get? x).map Node.outline :=
  Array.getElem?_map

@[simp] theorem ids_outline : a.outline.ids = a.ids := by
  simp [ids, size, outline]

theorem requested_walkAgenda_outline (x : NodeId) :
    requested (a.outline.walkAgenda x) = requested (a.walkAgenda x) := by
  cases h : a.get? x <;> simp [walkAgenda, h]

theorem closed_outline (hc : Closed a.walkAgenda a.ids) : Closed a.outline.walkAgenda a.outline.ids := by
  intro x hx y hy
  rw [ids_outline] at hx ⊢
  rw [requested_walkAgenda_outline] at hy
  exact hc x hx y hy

/-- A walk presents the nodes in the order of the outline. -/
theorem order_outline (hc : Closed a.walkAgenda a.ids) {roots : List NodeId} (hr : ∀ x ∈ roots, x ∈ a.ids) :
    a.outline.order roots = a.order roots := by
  rw [order, order, ids_outline]
  exact entered_run_congr hc a.requested_walkAgenda_outline (by simpa using hr) rfl

@[simp] theorem labelOf_outline (x : NodeId) : a.outline.labelOf x = a.labelOf x := by
  cases h : a.get? x with
  | none => simp [labelOf, h]
  | some n => cases n <;> simp [labelOf, h, Node.outline, Node.kindName]

@[simp] theorem argumentLabel_outline (x : NodeId) : a.outline.argumentLabel x = a.argumentLabel x := by
  cases h : a.get? x with
  | none => simp [argumentLabel, decl?, h]
  | some n => cases n <;> simp [argumentLabel, decl?, h, Node.outline, Node.asDecl?]

@[simp] theorem mentionOf_outline (x : NodeId) : a.outline.mentionOf x = a.mentionOf x := by
  simp [mentionOf]

@[simp] theorem blockContributions_outline : a.outline.blockContributions = a.blockContributions := by
  funext x
  cases h : a.get? x with
  | none => simp [blockContributions, block?, h]
  | some n => cases n <;> simp [blockContributions, block?, h, Node.outline, Node.asBlock?]

@[simp] theorem contributions_node_outline (flavor : Flavor) (x : NodeId) :
    a.outline.contributions flavor (.node x) = a.contributions flavor (.node x) := by
  cases h : a.get? x with
  | none => simp [contributions, h]
  | some n =>
      cases n <;> simp [contributions, functionContributions, stmtContributions, h, Node.outline]

end Arena

namespace CodeGraph

variable {g : CodeGraph} {flavor : Flavor}

/-- Without token edges only nodes contribute. -/
theorem labelled_eq (hc : Closed g.arena.walkAgenda g.arena.ids) (hr : ∀ x ∈ g.roots, x ∈ g.arena.ids)
    (hToken : flavor.includes .token = false) :
    g.labelled flavor = ((g.arena.order g.roots).flatMap fun x =>
      g.arena.contributions flavor (.node x)).foldl .add (.empty flavor) := by
  have hWalk : g.walk = _ := g.arena.walk_eq_flatMap hc hr
  rw [labelled, hWalk, List.flatMap_assoc]
  congr 1
  refine List.flatMap_congr fun x _ => ?_
  rw [List.flatMap_cons, List.flatMap_map]
  simp [Arena.contributions, hToken]

/-- Without token edges a labelled graph is that of the outline. -/
theorem WellFormed.labelled_outline (h : g.WellFormed) (hToken : flavor.includes .token = false) :
    g.outline.labelled flavor = g.labelled flavor := by
  have hc := h.typed.closed
  have hr : ∀ x ∈ g.outline.roots, x ∈ g.outline.arena.ids := by
    intro x hx
    rw [CodeGraph.outline, Arena.ids_outline]
    exact h.roots_mem_ids x hx
  rw [labelled_eq (g.arena.closed_outline hc) hr hToken, labelled_eq hc h.roots_mem_ids hToken]
  congr 1
  calc (g.arena.outline.order g.roots).flatMap (fun x => g.arena.outline.contributions flavor (.node x))
      = (g.arena.order g.roots).flatMap fun x => g.arena.outline.contributions flavor (.node x) := by
        rw [g.arena.order_outline hc h.roots_mem_ids]
    _ = (g.arena.order g.roots).flatMap fun x => g.arena.contributions flavor (.node x) :=
        List.flatMap_congr fun x _ => g.arena.contributions_node_outline flavor x

end CodeGraph

/-- The outline of a code graph is settled by the outline of its unit and the flow graphs. -/
theorem Frontend.outline_codeGraph (f : Frontend) (options : ExtractionOptions) {u v : SourceUnit}
    (hUnit : u.outline = v.outline) (hFlow : ∀ d, f.flowGraph u d = f.flowGraph v d) :
    (f.codeGraph options u).outline = (f.codeGraph options v).outline := by
  have hJob : Job.outline ⟨u, f, options⟩ = Job.outline ⟨v, f, options⟩ := by
    simp only [Job.outline, hUnit, funext hFlow]
  calc (f.codeGraph options u).outline
      = (Job.outline ⟨u, f, options⟩).codeGraph.outline := (Job.outline_codeGraph _).symm
    _ = (Job.outline ⟨v, f, options⟩).codeGraph.outline := by rw [hJob]
    _ = (f.codeGraph options v).outline := Job.outline_codeGraph _

/-- Whatever the tokens of two units are and wherever their declarations and statements stand: if the units have
the same outline and the same flow graphs, the code graphs have the same structure. -/
theorem Frontend.structure_independent_of_tokens (f : Frontend) (options : ExtractionOptions)
    (u v : SourceUnit) (hUnit : u.outline = v.outline) (hFlow : ∀ d, f.flowGraph u d = f.flowGraph v d) :
    (f.codeGraph options u).arena.nodes.map Node.outline = (f.codeGraph options v).arena.nodes.map Node.outline ∧
    (f.codeGraph options u).functions = (f.codeGraph options v).functions ∧
    (f.codeGraph options u).records = (f.codeGraph options v).records ∧
    ((f.codeGraph options u).diagnostics.filter (·.code ≠ .tokenLookup)).map (fun d => (d.code, d.message)) =
      ((f.codeGraph options v).diagnostics.filter (·.code ≠ .tokenLookup)).map (fun d => (d.code, d.message)) ∧
    ∀ flavor ∈ [Flavor.ast, .astData, .astDataCfg],
      (f.codeGraph options u).labelled flavor = (f.codeGraph options v).labelled flavor := by
  have hGraph := f.outline_codeGraph options hUnit hFlow
  have hNodes := congrArg (·.arena.nodes) hGraph
  have hFunctions := congrArg CodeGraph.functions hGraph
  have hRecords := congrArg CodeGraph.records hGraph
  have hText := congrArg (List.map fun d => (d.code, d.message)) (congrArg CodeGraph.diagnostics hGraph)
  simp only [CodeGraph.outline, List.map_map] at hText
  refine ⟨hNodes, hFunctions, hRecords, hText, ?_⟩
  intro flavor hFlavor
  have hToken : flavor.includes .token = false := by
    simp only [List.mem_cons, List.not_mem_nil, or_false] at hFlavor
    rcases hFlavor with rfl | rfl | rfl <;> rfl
  have hu := (Job.wellFormed_codeGraph ⟨u, f, options⟩).labelled_outline hToken
  have hv := (Job.wellFormed_codeGraph ⟨v, f, options⟩).labelled_outline hToken
  exact hu.symm.trans ((congrArg (·.labelled flavor) hGraph).trans hv)

/-- If all tokens of a unit are lost, every range is reported, and the structure stays. -/
theorem Frontend.structure_independent_of_tokens_cell :
    cellUnit.outline = SourceUnit.outline { cellUnit with lexemes := [] } ∧
    ((cellJob true).frontend.codeGraph {} cellUnit).diagnostics = [] ∧
    ((cellJob true).frontend.codeGraph {} { cellUnit with lexemes := [] }).diagnostics.length = 7 ∧
    ((cellJob true).frontend.codeGraph {} cellUnit).labelled .astData =
      ((cellJob true).frontend.codeGraph {} { cellUnit with lexemes := [] }).labelled .astData := by
  obtain ⟨-, -, -, -, hLabelled⟩ := Frontend.structure_independent_of_tokens (cellJob true).frontend {} cellUnit
    { cellUnit with lexemes := [] } rfl (fun _ => rfl)
  exact ⟨rfl, by decide +kernel, by decide +kernel, hLabelled .astData (by decide)⟩

end UnitGraph
