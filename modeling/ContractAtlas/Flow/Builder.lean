import ContractAtlas.Flow.Graph

/-! The flow graph of a function. Edges run from the last write of a variable to each later read,
from the reads of an assignment to its writes, and from a condition's reads to the writes it
guards. -/
namespace ContractAtlas

structure FlowBuilder where
  graph : FlowGraph := {}
  /-- The point of the last write or parameter of each variable, latest first. -/
  lastWrites : List (String × Nat) := []
  /-- Reads of the conditions around the current place, with the conditions' texts. -/
  guards : List (Nat × Text) := []
deriving Inhabited

namespace FlowBuilder

/-- Adds a read; the last write of the variable flows into it. -/
def read (b : FlowBuilder) (name : String) (span : Span) (statement : Text) (kind : FlowKind) :
    Nat × FlowBuilder :=
  let (id, graph) := b.graph.addPoint
    { variableName := name, isRead := true, isWrite := false, kind, span, statement }
  let graph := match b.lastWrites.lookup name with
    | some write => graph.addEdge { source := write, target := id, kind := .direct }
    | none => graph
  (id, { b with graph := graph })

/-- Adds a write; its sources and the guards around it flow into it. -/
def write (b : FlowBuilder) (name : String) (span : Span) (statement : Text) (kind : FlowKind)
    (sources : List Nat) (isDirect : Bool) : FlowBuilder :=
  let (id, graph) := b.graph.addPoint
    { variableName := name, isRead := false, isWrite := true, kind, span, statement }
  let flow := if isDirect then FlowKind.direct else FlowKind.indirect
  let fromSources := sources.map fun source => { source, target := id, kind := flow : FlowEdge }
  let fromGuards := b.guards.map fun (source, text) =>
    { source, target := id, kind := .conditional, condition := some text : FlowEdge }
  { b with
    graph := (fromSources ++ fromGuards).foldl FlowGraph.addEdge graph
    lastWrites := (name, id) :: b.lastWrites }

end FlowBuilder

namespace Node

mutual

/-- Variables that an assignment to this target writes: the root of a chain of indexes and members,
and every part of a tuple. -/
def writtenNames : Node → List String
  | ⟨kind, _, _, children⟩ =>
    match kind with
    | .identifier name => [name]
    | .indexAccess | .memberAccess _ =>
      match children with
      | [] => []
      | base :: _ => writtenNames base
    | .tuple | .parenthesized => writtenNamesIn children
    | _ => []

def writtenNamesIn : List Node → List String
  | [] => []
  | n :: ns => writtenNames n ++ writtenNamesIn ns

end

/-- An assignment or an update. -/
def isWriteExpression (n : Node) : Bool :=
  match n.kind with
  | .assignment _ | .update _ => true
  | _ => false

/-- The writes of one assignment. A compound one reads each variable before it writes it. -/
def writeAll (statement : Text) (span : Span) (isCompound isDirect : Bool) (sources : List Nat)
    (names : List String) (b : FlowBuilder) : FlowBuilder :=
  names.foldl (fun b name =>
    if isCompound then
      let (id, b) := b.read name span statement .direct
      b.write name span statement .direct (sources ++ [id]) isDirect
    else b.write name span statement .direct sources isDirect) b

/-- The writes of an update: each operand is read and written. -/
def updateAll (statement : Text) (operands : List Node) (b : FlowBuilder) : FlowBuilder :=
  operands.foldl (fun b operand =>
    operand.writtenNames.foldl (fun b name =>
      let (id, b) := b.read name operand.span statement .direct
      b.write name operand.span statement .direct [id] false) b) b

mutual

/-- Adds what an expression reads and writes, and gives back its reads. Assignments and updates
inside give back none. -/
def reads (statement : Text) (kind : FlowKind) : Node → FlowBuilder → List Nat × FlowBuilder
  | ⟨nodeKind, span, _, children⟩, b =>
    match nodeKind with
    | .identifier name =>
      let (id, b) := b.read name span statement kind
      ([id], b)
    | .assignment operator =>
      match children with
      | [] => ([], b)
      | target :: values =>
        let (sources, b) := readsAll statement .direct values b
        let (keys, b) := targetKeys statement target b
        let isCompound := operator != "="
        let isDirect := !isCompound && match values with
          | [value] => value.identifier?.isSome
          | _ => false
        ([], writeAll statement target.span isCompound isDirect (sources ++ keys)
          target.writtenNames b)
    | .update _ => ([], updateAll statement children b)
    | .call _ =>
      match children with
      | [] => ([], b)
      | callee :: arguments =>
        let (first, b) := if callee.identifier?.isSome then ([], b)
          else reads statement kind callee b
        let (rest, b) := readsAll statement kind arguments b
        (first ++ rest, b)
    | .literal _ | .elementaryType _ | .creation _ => ([], b)
    | _ => readsAll statement kind children b

def readsAll (statement : Text) (kind : FlowKind) : List Node → FlowBuilder → List Nat × FlowBuilder
  | [], b => ([], b)
  | n :: ns, b =>
    let (first, b) := reads statement kind n b
    let (rest, b) := readsAll statement kind ns b
    (first ++ rest, b)

/-- Adds the reads of the index keys inside an assignment target. -/
def targetKeys (statement : Text) : Node → FlowBuilder → List Nat × FlowBuilder
  | ⟨nodeKind, _, _, children⟩, b =>
    match nodeKind with
    | .indexAccess =>
      match children with
      | [] => ([], b)
      | base :: keys =>
        let (first, b) := readsAll statement .direct keys b
        let (rest, b) := targetKeys statement base b
        (first ++ rest, b)
    | .memberAccess _ =>
      match children with
      | [] => ([], b)
      | object :: _ => targetKeys statement object b
    | _ => ([], b)

end

mutual

/-- Adds the flow of a statement. Behind a branch or a loop the guards are cut back to as many as
stood before it. -/
def flow : Node → FlowBuilder → FlowBuilder
  | ⟨kind, span, excerpt, children⟩, b =>
    match kind with
    | .declaration names =>
      let (sources, b) := readsAll excerpt.text .direct children b
      let isDirect := match children with
        | [value] => value.identifier?.isSome
        | _ => false
      names.foldl (fun b name =>
        b.write name span excerpt.text .declaration sources isDirect) b
    | .returnStatement => (readsAll excerpt.text .returned children b).2
    | .ifStatement | .whileLoop | .forLoop | .doWhileLoop =>
      let inner := guardedFlow excerpt.text children b
      { inner with guards := inner.guards.take b.guards.length }
    | .assembly => b
    | _ => partFlow excerpt.text children b

/-- Adds the children of a branch or a loop. What a condition reads guards the children after it. -/
def guardedFlow (statement : Text) : List Node → FlowBuilder → FlowBuilder
  | [], b => b
  | n :: ns, b =>
    if n.isStatement then guardedFlow statement ns (flow n b)
    else if n.isWriteExpression then guardedFlow statement ns (reads statement .direct n b).2
    else
      let (ids, b) := reads statement .conditional n b
      guardedFlow statement ns { b with guards := b.guards ++ ids.map fun id => (id, n.text) }

def partFlow (statement : Text) : List Node → FlowBuilder → FlowBuilder
  | [], b => b
  | n :: ns, b =>
    partFlow statement ns (if n.isStatement then flow n b else (reads statement .direct n b).2)

end

end Node

namespace Function

/-- The named parameters as points that flow like writes. -/
def parameterFlow (f : Function) : FlowBuilder :=
  f.parameterNames.foldl (fun b name =>
    let (id, graph) := b.graph.addPoint
      { variableName := name, isRead := true, isWrite := false, kind := .parameter, span := f.span,
        statement := f.source }
    { b with graph := graph, lastWrites := (name, id) :: b.lastWrites }) {}

/-- The flow graph of a function. -/
def flowGraph (f : Function) : FlowGraph :=
  match f.body with
  | some body => (body.flow f.parameterFlow).graph
  | none => f.parameterFlow.graph

end Function

end ContractAtlas
