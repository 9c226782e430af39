import ContractAtlas.Program.Basic
import ContractAtlas.Symbol.Declaration

/-! Where a symbol is defined. The first declaration in load order is the primary one. -/
namespace ContractAtlas

/-- How a declaration relates to the primary one. -/
inductive DefinitionRole
  | primary
  | additional
  | overriding
  | interface
deriving DecidableEq

def DefinitionRole.name : DefinitionRole → String
  | primary => "primary"
  | additional => "additional"
  | overriding => "override"
  | interface => "interface"

/-- A place to show: file, line and column, and what encloses it. -/
structure SymbolLocation where
  path : String
  line : Nat
  column : Nat
  contract : Option String
  function : Option String
deriving DecidableEq

structure Definition where
  name : String
  kind : SymbolKind
  role : DefinitionRole
  location : SymbolLocation
  source : Text
deriving DecidableEq

namespace Declaration

def toDefinition (d : Declaration) (kind : SymbolKind) (role : DefinitionRole) : Definition :=
  { name := d.name
    kind := kind
    role := role
    location := ⟨d.span.path, d.span.line, d.span.column, some d.contract.name,
      d.function.map Function.name⟩
    source := d.source }

end Declaration

namespace Program

/-- The role of a declaration after the primary one. Only functions, events and modifiers can be
anything but additional. -/
def roleOf (p : Program) (kind : SymbolKind) (primary d : Declaration) : DefinitionRole :=
  if kind != .function && kind != .event && kind != .modifier then .additional
  else if kind != .modifier && d.contract.isInterface then .interface
  else
    let a := primary.contract.id
    let b := d.contract.id
    let related := a != b && (p.inheritsFrom b a || p.inheritsFrom a b)
    if d.isOverride || related then .overriding else .additional

variable [SearchEngine]

/-- The definitions of a target that pass the filters. -/
def definitionsWithin (p : Program) (filters : Filters) (target : String) (kind : SymbolKind) :
    Except LookupError (List Definition) :=
  match QualifiedName.ofText? target.toList with
  | none => .error (.malformed target)
  | some q =>
    match (p.declarationsOf q kind).filter fun d => filters.accepts d.contract d.span.path with
    | [] => .error (.notFound target kind)
    | primary :: rest =>
      .ok (primary.toDefinition kind .primary ::
        rest.map fun d => d.toDefinition kind (p.roleOf kind primary d))

/-- All definitions of a target. -/
def definitions (p : Program) (target : String) (kind : SymbolKind) :
    Except LookupError (List Definition) := p.definitionsWithin {} target kind

end Program

end ContractAtlas
