import ContractAtlas.Entries
import ContractAtlas.Program.Declaration
import ContractAtlas.Reach
import ContractAtlas.Source.Span

/-! Graphs of data flow between the reads and writes of variables. -/
namespace ContractAtlas

inductive FlowKind
  | direct
  | conditional
  | indirect
  | parameter
  | returned
  | declaration
deriving DecidableEq, Inhabited

namespace FlowKind

def name : FlowKind → String
  | direct => "direct"
  | conditional => "conditional"
  | indirect => "indirect"
  | parameter => "parameter"
  | returned => "return"
  | declaration => "declaration"

def all : List FlowKind := [direct, conditional, indirect, parameter, returned, declaration]

def ofName? (s : String) : Option FlowKind := all.find? fun k => k.name == s

end FlowKind

/-- A read or a write of a variable. Its number is its place among the points. -/
structure FlowPoint where
  id : Nat := 0
  variableName : String
  isRead : Bool
  isWrite : Bool
  kind : FlowKind
  span : Span := {}
  /-- Source of the enclosing statement. -/
  statement : Text := []
deriving DecidableEq

/-- Flow from one point to another. The numbers need not belong to points. -/
structure FlowEdge where
  source : Nat
  target : Nat
  kind : FlowKind
  /-- Text of the condition, on conditional flow. -/
  condition : Option Text := none
deriving DecidableEq

structure FlowGraph where
  points : List FlowPoint := []
  edges : List FlowEdge := []
  /-- The numbers of the points of each variable. -/
  index : Entries String (List Nat) := []
deriving DecidableEq, Inhabited

namespace FlowGraph

/-- Appends a point under the next number. -/
def addPoint (g : FlowGraph) (p : FlowPoint) : Nat × FlowGraph :=
  let id := g.points.length
  (id, { g with
    points := g.points ++ [{ p with id := id }]
    index := g.index.update p.variableName [] (· ++ [id]) })

def addEdge (g : FlowGraph) (e : FlowEdge) : FlowGraph := { g with edges := g.edges ++ [e] }

def point? (g : FlowGraph) (id : Nat) : Option FlowPoint := g.points[id]?

/-- The points of a variable, by the index. -/
def pointsFor (g : FlowGraph) (name : String) : List FlowPoint :=
  ((g.index.lookup name).getD []).filterMap g.point?

/-- Numbers met on a search: those gone through, and those reached in order. -/
structure Search where
  visited : List Nat := []
  reached : List Nat := []

namespace Search

def reach (s : Search) (id : Nat) : Search :=
  if s.reached.contains id then s else { s with reached := s.reached ++ [id] }

/-- Follows the steps out of `current`, depth first and at most `depth` deep. A number is gone
through once, at the depth at which it is met first. -/
def follow (steps : List (Nat × Nat)) : (depth : Nat) → (current : Nat) → Search → Search
  | 0, _, s => s
  | depth + 1, current, s =>
    if s.visited.contains current then s
    else
      steps.foldl (fun s step =>
          if step.1 = current then follow steps depth step.2 (s.reach step.2) else s)
        { s with visited := current :: s.visited }

end Search

def steps (g : FlowGraph) : List (Nat × Nat) := g.edges.map fun e => (e.source, e.target)

def backSteps (g : FlowGraph) : List (Nat × Nat) := g.edges.map fun e => (e.target, e.source)

/-- Numbers found from `id` along the edges. -/
def forward (g : FlowGraph) (id depth : Nat) : List Nat :=
  (Search.follow g.steps depth id {}).reached

/-- Numbers found from `id` against the edges. -/
def backward (g : FlowGraph) (id depth : Nat) : List Nat :=
  (Search.follow g.backSteps depth id {}).reached

/-- The paths that go on from `path` with `current`, up to the first arrival at `target`, by at most
`depth` more numbers and without repeats. -/
def pathsFrom (steps : List (Nat × Nat)) (target : Nat) : (depth : Nat) → (current : Nat) →
    (path : List Nat) → List (List Nat)
  | 0, _, _ => []
  | depth + 1, current, path =>
    if path.contains current then []
    else if current = target then [path ++ [current]]
    else
      (steps.filter (·.1 = current)).flatMap fun step =>
        pathsFrom steps target depth step.2 (path ++ [current])

/-- Paths of at most `depth` numbers from `source` to `target`. -/
def paths (g : FlowGraph) (source target depth : Nat) : List (List Nat) :=
  pathsFrom g.steps target depth source []

/-- The points found from any occurrence of a variable, each once. -/
def trace (g : FlowGraph) (depth : Nat) (name : String) (direction : Direction) :
    List FlowPoint :=
  let found := (g.pointsFor name).flatMap fun p =>
    (if direction = .backward then [] else g.forward p.id depth) ++
      if direction = .forward then [] else g.backward p.id depth
  (Reach.fresh (fun id => id) [] found).filterMap g.point?

end FlowGraph

end ContractAtlas
