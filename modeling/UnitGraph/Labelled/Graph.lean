import UnitGraph.Graph.Walk
import UnitGraph.Labelled.Flavor
import UnitGraph.Labelled.TypeClass
import UnitGraph.Tally

/-!
# Labelled graphs

A directed multigraph with labelled nodes and edges of several kinds. It is built from a code graph by
following its walk: every event of the walk contributes nodes and edges. A node keeps the label it had
when it was first mentioned.
-/
namespace UnitGraph

/-- What a labelled node stands for: a node of the code graph, or the token at a stream position. -/
inductive GraphKey where
  | node (id : NodeId)
  | token (index : Nat)
  deriving DecidableEq, Repr

/-- A labelled node; tokens carry their stream position. -/
structure LabelledNode where
  key : GraphKey
  label : String
  order : Option Nat
  deriving DecidableEq, Repr

structure LabelledEdge where
  source : GraphKey
  target : GraphKey
  kind : EdgeKind
  deriving DecidableEq, Repr

/-- One contribution to a labelled graph. A token is connected only if its owner is already a node. -/
inductive Contribution where
  | mention (node : LabelledNode)
  | connect (edge : LabelledEdge)
  | own (owner : GraphKey) (token : LabelledNode)
  deriving DecidableEq, Repr

structure LabelledGraph where
  flavor : Flavor
  nodes : List LabelledNode
  edges : List LabelledEdge
  deriving DecidableEq, Repr

namespace LabelledGraph

def empty (flavor : Flavor) : LabelledGraph := ⟨flavor, [], []⟩

def node? (g : LabelledGraph) (k : GraphKey) : Option LabelledNode := g.nodes.find? (·.key = k)

/-- The node comes last unless its key is there already. -/
def mention (g : LabelledGraph) (n : LabelledNode) : LabelledGraph :=
  if (g.node? n.key).isSome then g else { g with nodes := g.nodes ++ [n] }

def connect (g : LabelledGraph) (e : LabelledEdge) : LabelledGraph :=
  { g with edges := g.edges ++ [e] }

def add (g : LabelledGraph) : Contribution → LabelledGraph
  | .mention n => g.mention n
  | .connect e => g.connect e
  | .own owner token =>
      if (g.node? owner).isSome then
        (g.mention token).connect ⟨owner, token.key, .token⟩
      else g

def position? (g : LabelledGraph) (k : GraphKey) : Option Nat := g.nodes.findIdx? (·.key = k)

def hasEdge (g : LabelledGraph) (source target : GraphKey) (kind : EdgeKind) : Bool :=
  ⟨source, target, kind⟩ ∈ g.edges

def countOfKind (g : LabelledGraph) (k : EdgeKind) : Nat := g.edges.countP (·.kind = k)

/-- How often each label occurs, in order of first occurrence. -/
def labelCounts (g : LabelledGraph) : List (String × Nat) := tally (g.nodes.map (·.label))

/-- The edges with the positions of their ends. -/
def positionedEdges (g : LabelledGraph) : List (Nat × Nat × EdgeKind) :=
  g.edges.filterMap fun e => do
    return (← g.position? e.source, ← g.position? e.target, e.kind)

end LabelledGraph

namespace Arena

variable (a : Arena)

/-- The label of a node: a statement's class, a declaration's type class, a word for all others. -/
def labelOf (id : NodeId) : String :=
  match a.get? id with
  | some (.stmt n) => n.name
  | some (.decl n) => (TypeClass.ofSpelling n.type).name
  | some (.block _) => "cfg"
  | some n => n.kindName
  | none => ""

def argumentLabel (id : NodeId) : String :=
  "argument:" ++ (TypeClass.ofSpelling (((a.decl? id).map (·.type)).getD "")).name

def mentionOf (id : NodeId) : Contribution := .mention ⟨.node id, a.labelOf id, none⟩

def edge (source target : NodeId) (kind : EdgeKind) : Contribution :=
  .connect ⟨.node source, .node target, kind⟩

/-- A block, its successors and the statements it contains. -/
def blockContributions (id : NodeId) : List Contribution :=
  match a.block? id with
  | some b =>
      a.mentionOf id ::
        b.successors.flatMap (fun s => [a.mentionOf s, edge id s .cfg]) ++
        b.statements.flatMap (fun s => [a.mentionOf s, edge s id .within])
  | none => []

/-- A function, its arguments, its body and, if wanted, its blocks. -/
def functionContributions (flavor : Flavor) (id : NodeId) (n : FunctionNode) : List Contribution :=
  .mention ⟨.node id, "function", none⟩ ::
    n.args.flatMap (fun arg => [.mention ⟨.node arg, a.argumentLabel arg, none⟩, edge id arg .ast]) ++
    [a.mentionOf n.entry, edge id n.entry .ast] ++
    (if flavor.includes .cfg then n.blocks.flatMap a.blockContributions else [])

/-- A statement, what is below it and, if wanted, what it reads. -/
def stmtContributions (flavor : Flavor) (id : NodeId) (n : StmtNode) : List Contribution :=
  a.mentionOf id ::
    n.children.flatMap (fun c => [a.mentionOf c, edge id c .ast]) ++
    (if flavor.includes .data then n.references.flatMap fun d => [a.mentionOf d, edge id d .data] else [])

def contributions (flavor : Flavor) : WalkEvent → List Contribution
  | .node id =>
      match a.get? id with
      | some (.function n) => a.functionContributions flavor id n
      | some (.stmt n) => a.stmtContributions flavor id n
      | _ => []
  | .token t =>
      if flavor.includes .token then
        [.own (.node t.owner) ⟨.token t.token.index, t.token.name, some t.token.index⟩]
      else []

end Arena

def CodeGraph.labelled (g : CodeGraph) (flavor : Flavor) : LabelledGraph :=
  (g.walk.flatMap (g.arena.contributions flavor)).foldl .add (.empty flavor)

end UnitGraph
