import ContractAtlas.Program.Declaration

/-! Reads and writes of variables in function bodies. -/
namespace ContractAtlas

/-- How a variable is reached: by itself, through a member or an index, or as a parameter. -/
inductive AccessPath
  | direct
  | member
  | index
  | parameter
deriving DecidableEq

def AccessPath.name : AccessPath → String
  | direct => "direct"
  | member => "member"
  | index => "index"
  | parameter => "parameter"

structure VariableReference where
  name : String
  span : Span
  /-- Source of the enclosing statement. -/
  statement : Text
  isRead : Bool
  isWrite : Bool
  path : AccessPath
  /-- Name of the function that holds the reference. -/
  function : String
deriving DecidableEq

/-- What is done to a variable. -/
inductive Access
  | read
  | write
  | readWrite
deriving DecidableEq

namespace Access

def reads : Access → Bool
  | write => false
  | _ => true

def writes : Access → Bool
  | read => false
  | _ => true

end Access

/-- A reference, and whether it declares the variable. -/
structure Sighting where
  reference : VariableReference
  declares : Bool := false
deriving DecidableEq

namespace Sighting

def make (function name : String) (span : Span) (statement : Text) (path : AccessPath)
    (access : Access) (declares : Bool) : Sighting :=
  ⟨⟨name, span, statement, access.reads, access.writes, path, function⟩, declares⟩

end Sighting

namespace Node

variable (function : String)

mutual

/-- The references in a statement. Assembly is not looked into. -/
def sightings : Node → List Sighting
  | ⟨kind, span, excerpt, children⟩ =>
    match kind with
    | .declaration names =>
      names.map (fun name =>
        Sighting.make function name span excerpt.text .direct .write true) ++
      expressionSightings excerpt.text .read children
    | .assembly => []
    | _ => partSightings excerpt.text children

/-- The references in the children of a statement or of an unknown form. -/
def partSightings (statement : Text) : List Node → List Sighting
  | [] => []
  | n :: ns =>
    (if n.isStatement then sightings n else expressionSighting statement .read n) ++
      partSightings statement ns

/-- The references in an expression of a statement. The base of an index or a member inherits the
access; a bare callee is a function and no variable. -/
def expressionSighting (statement : Text) (access : Access) : Node → List Sighting
  | ⟨kind, span, _, children⟩ =>
    match kind with
    | .identifier name => [Sighting.make function name span statement .direct access false]
    | .indexAccess =>
      match children with
      | [] => []
      | base :: keys =>
        expressionSightings statement .read keys ++
          match base.identifier? with
          | some name => [Sighting.make function name base.span statement .index access false]
          | none => expressionSighting statement access base
    | .memberAccess _ =>
      match children with
      | [] => []
      | object :: _ =>
        match object.identifier? with
        | some name => [Sighting.make function name object.span statement .member access false]
        | none => expressionSighting statement access object
    | .assignment operator =>
      match children with
      | [] => []
      | target :: values =>
        expressionSighting statement (if operator = "=" then .write else .readWrite) target ++
          expressionSightings statement .read values
    | .update _ => expressionSightings statement .readWrite children
    | .call _ =>
      match children with
      | [] => []
      | callee :: arguments =>
        (if callee.identifier?.isSome then [] else expressionSighting statement .read callee) ++
          expressionSightings statement .read arguments
    | .literal _ | .elementaryType _ | .creation _ => []
    | _ => partSightings statement children

def expressionSightings (statement : Text) (access : Access) : List Node → List Sighting
  | [] => []
  | n :: ns =>
    expressionSighting statement access n ++ expressionSightings statement access ns

end

end Node

namespace Function

/-- The references in a function: its named parameters, then its body. -/
def sightings (f : Function) : List Sighting :=
  f.parameterNames.map (fun name =>
    Sighting.make f.name name f.span f.source .parameter .read false) ++
  (f.body.map (Node.sightings f.name)).getD []

end Function

end ContractAtlas
