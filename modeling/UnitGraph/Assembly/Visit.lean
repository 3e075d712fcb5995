import UnitGraph.Assembly.Basic

/-!
# One pass over a unit

The recursive construction of a code graph. The node of an entity is registered before anything that it
refers to is visited, so that a cycle comes back to the registered node, and it is completed afterwards. The
depth of the recursion is bounded from outside; a bound that is met is a fault.
-/
namespace UnitGraph.Job

open Assembling

variable (j : Job)

def enumNode (d : DeclId) : Assembling NodeId := once (.enum d) do
  let decl ← Checked.decl j.unit d
  build (.enum d) (.enum { name := decl.name.text, tokens := [] }) do
    let tokens ← claim decl.range .shared decl.name.text
    return fun
      | .enum n => .enum { n with tokens := tokens }
      | n => n

def typedefNode (d : DeclId) : Assembling NodeId := once (.typedef d) do
  let decl ← Checked.decl j.unit d
  let underlying ← Checked.underlyingSpelling j.unit decl.kind
  let nameToken ← Checked.tokenAt? (← get).ledger decl.location
  build (.typedef d) (.typedef
      { name := decl.name.text, underlying := underlying, tokens := [], nameToken := nameToken }) do
    let tokens ← claim decl.range .shared decl.name.text
    return fun
      | .typedef n => .typedef { n with tokens := tokens }
      | n => n

def fieldsOf : DeclKind → List DeclId
  | .record _ fields _ => fields
  | _ => []

/-- What one field adds to the lists of its record. -/
structure FieldLinks where
  records : List NodeId
  enums : List NodeId
  typedefs : List NodeId

/-- The node of the record that a type refers to, if any. -/
def recordNodes (recordNode : DeclId → Assembling NodeId) (t : TypeId) : Assembling (List NodeId) := do
  (← Checked.referencedRecord j.unit t).toList.mapM recordNode

/-- The nodes of the records in the signature of a function pointer. -/
def signatureNodes (recordNode : DeclId → Assembling NodeId) (t : TypeId) : Assembling (List NodeId) := do
  match ← Checked.functionPointer j.unit t with
  | some s => return (← s.types.mapM (j.recordNodes recordNode)).flatten
  | none => pure []

def fieldLinks (recordNode : DeclId → Assembling NodeId) (field : DeclId) : Assembling FieldLinks := do
  match (← Checked.decl j.unit field).type with
  | none => pure ⟨[], [], []⟩
  | some t =>
      let record ← j.recordNodes recordNode t
      let typedef ← (← Checked.referencedAlias j.unit t).toList.mapM j.typedefNode
      let signature ← j.signatureNodes recordNode t
      let enum ← (← Checked.namedEnum j.unit t).toList.mapM j.enumNode
      pure ⟨record ++ signature, enum, typedef⟩

def recordNode : Nat → DeclId → Assembling NodeId
  | 0, _ => throw .depth
  | depth + 1, d => once (.record d) do
      let decl ← Checked.decl j.unit d
      let isTypedef ← Checked.isTypedefTarget j.unit d
      build (.record d) (.record
          { name := decl.name.text, isTypedef := isTypedef, tokens := [], records := [], enums := [],
            typedefs := [] }) do
        let tokens ← claim decl.range .shared decl.name.text
        let links ← (fieldsOf decl.kind).mapM (j.fieldLinks (recordNode depth))
        return fun
          | .record n => .record
              { n with tokens := tokens, records := links.flatMap (·.records),
                       enums := links.flatMap (·.enums), typedefs := links.flatMap (·.typedefs) }
          | n => n

/-- What a declaration shows of its type. -/
structure TypeLinks where
  type : String
  record : Option NodeId
  typedef : Option NodeId

def typeLinks (depth : Nat) (decl : Decl) : Assembling TypeLinks := do
  match decl.kind, decl.type with
  | .typedef underlying, _ => return ⟨(← Checked.type j.unit underlying).kind.className, none, none⟩
  | kind, some t =>
      if kind.isValue then
        let record ← (← Checked.referencedRecord j.unit t).mapM (j.recordNode depth)
        let typedef ← (← Checked.referencedAlias j.unit t).mapM j.typedefNode
        return ⟨← Checked.spelling j.unit t, record, typedef⟩
      else pure ⟨"", none, none⟩
  | _, none => pure ⟨"", none, none⟩

def declNode (depth : Nat) (d : DeclId) : Assembling NodeId := do
  let decl ← Checked.decl j.unit d
  once (.decl d) do
    build (.decl d) (.decl
        { name := decl.name.text, type := "", kind := decl.kind.name, tokens := [], nameToken := none,
          record := none, typedef := none }) do
      let nameToken ← Checked.tokenAt? (← get).ledger decl.location
      let links ← j.typeLinks depth decl
      return fun
        | .decl n => .decl
            { n with type := links.type, nameToken := nameToken, record := links.record,
                     typedef := links.typedef }
        | n => n

/-- A parameter claims tokens whenever it is met as one; no other mention of a declaration does. -/
def paramNode (depth : Nat) (d : DeclId) : Assembling NodeId := do
  let id ← j.declNode depth d
  let decl ← Checked.decl j.unit d
  let tokens ← claim decl.range .exclusive decl.name.text
  update id fun
    | .decl n => .decl { n with tokens := n.tokens ++ tokens }
    | n => n
  pure id

def stmtNode : Nat → StmtId → Assembling NodeId
  | 0, _ => throw .depth
  | depth + 1, s => once (.stmt s) do
      let stmt ← Checked.stmt j.unit s
      build (.stmt s)
          (.stmt { name := stmt.className, tokens := [], children := [], references := [] }) do
        let children ← stmt.children.mapM (stmtNode depth)
        let decls ← stmt.decls.mapM (j.declNode depth)
        let references ← stmt.referenced.toList.mapM (j.declNode depth)
        let tokens ← claim stmt.range .exclusive stmt.className
        return fun
          | .stmt n => .stmt
              { n with children := children ++ decls, references := references, tokens := tokens }
          | n => n

def blockNode (g : FlowGraph) (f : DeclId) : Nat → Nat → Assembling NodeId
  | 0, _ => throw .depth
  | depth + 1, i => once (.block f i) do
      let block ← (Fault.block f i).unless g.blocks[i]?
      build (.block f i)
          (.block { name := s!"cfg_{block.label}", statements := [], successors := [] }) do
        let statements ← block.statements.mapM (j.stmtNode depth)
        let successors ← block.targets.mapM (blockNode g f depth)
        return fun
          | .block n => .block { n with statements := statements, successors := successors }
          | n => n

/-- The nodes of the flow blocks of a function; a flow graph with an edge that leaves it has none. -/
def flowNodes (depth : Nat) (f : DeclId) : Assembling (List NodeId) := do
  if j.options.flowBlocks then
    match j.flow f with
    | .ok g => (List.range g.blocks.length).mapM (j.blockNode g f depth)
    | .error e =>
        let decl ← Checked.decl j.unit f
        report (e.diagnostic decl.name.text decl.range)
        pure []
  else pure []

def visitFunction (depth : Nat) (d : DeclId) : Assembling Unit := do
  let decl ← Checked.decl j.unit d
  match decl.definition? with
  | none => discard (claim decl.range .exclusive decl.name.text)
  | some (params, body) =>
      let args ← params.mapM (j.paramNode depth)
      let entry ← j.stmtNode depth body
      let tokens ← claim decl.range .exclusive decl.name.text
      let blocks ← j.flowNodes depth d
      let type ← Checked.declaredSpelling j.unit decl.type
      let id ← allocate (.function
        { name := decl.name.text, type := type, tokens := tokens, args := args, entry := entry,
          blocks := blocks })
      modify fun a => { a with functions := a.functions ++ [id] }

def visitRecord (depth : Nat) (d : DeclId) : Assembling Unit := do
  let id ← j.recordNode depth (← Checked.recordDefinition j.unit d)
  modify fun a => { a with records := if id ∈ a.records then a.records else a.records ++ [id] }

def visitTopLevel (depth : Nat) (d : DeclId) : Assembling Unit := do
  match (← Checked.decl j.unit d).kind with
  | .function .. => j.visitFunction depth d
  | .record .. => if j.options.visitRecords then j.visitRecord depth d else pure ()
  | _ => pure ()

/-- The graph of a unit, assembled in one pass whose recursion goes no deeper than allowed. -/
def assemble (depth : Nat) : Except Fault CodeGraph := do
  let (_, a) ← (j.unit.topLevel.forM (j.visitTopLevel depth)).run { ledger := j.unit.ledger }
  pure { arena := a.arena, functions := a.functions, records := a.records, diagnostics := a.diagnostics }

end UnitGraph.Job
