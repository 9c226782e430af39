import ContractAtlas.Symbol.Chain
import ContractAtlas.Symbol.Usage

/-! Definitions, usages and call chains of a target in one report. -/
namespace ContractAtlas

/-- Which parts of a report are wanted. -/
inductive ReferenceScope
  | everything
  | usages
  | definitions
deriving DecidableEq, Inhabited

namespace ReferenceScope

def name : ReferenceScope → String
  | everything => "all"
  | usages => "usages"
  | definitions => "definitions"

def all : List ReferenceScope := [everything, usages, definitions]

def ofName? (s : String) : Option ReferenceScope := all.find? fun r => r.name == s

end ReferenceScope

structure ReferenceQuery where
  target : String
  kind : SymbolKind
  scope : ReferenceScope := .everything
  direction : Direction := .both
  withCallChains : Bool := false
  maxDepth : UInt64 := ({} : Settings).maxCallChainDepth
  filters : Filters := {}
deriving DecidableEq

structure ReferenceReport where
  /-- Name and kind under which the target was found. -/
  resolvedAs : String × SymbolKind
  definitions : List Definition := []
  usages : List Usage := []
  chains : List (List String) := []
  depthReached : Bool := false
  truncated : Bool := false
deriving DecidableEq

namespace Program

/-- Some declaration of this name and kind exists. -/
def declares (p : Program) (target : String) (kind : SymbolKind) : Bool :=
  match QualifiedName.ofText? target.toList with
  | some q => !(p.declarationsOf q kind).isEmpty
  | none => false

/-- What else a target may mean: a variable its getter or its private counterpart, a function a
variable. -/
def fallbacks (q : QualifiedName) (target : String) : SymbolKind → List (String × SymbolKind)
  | .stateVariable => [(target, .function), (q.underscored, .stateVariable)]
  | .function => [(target, .stateVariable)]
  | _ => []

/-- The first meaning of a target that has a declaration. -/
def resolve? (p : Program) (target : String) (kind : SymbolKind) :
    Option (String × SymbolKind) := do
  let q ← QualifiedName.ofText? target.toList
  ((target, kind) :: fallbacks q target kind).find? fun (name, kind) => p.declares name kind

/-- The report that a query asks for. Parts that the query leaves out stay empty. -/
def references [SearchEngine] (p : Program) (settings : Settings) (query : ReferenceQuery) :
    Except LookupError ReferenceReport :=
  match p.resolve? query.target query.kind with
  | none => .error (.notFound query.target query.kind)
  | some (target, kind) =>
    let definitions := if query.scope = .usages then []
      else (p.definitionsWithin query.filters target kind).toOption.getD []
    let usages : Usages := if query.scope = .definitions then ⟨[], false⟩
      else (p.usages settings target kind query.direction query.filters).toOption.getD ⟨[], false⟩
    let chains : CallChains := if query.withCallChains && kind = .function then
        (p.callChains target query.maxDepth.toNat).toOption.getD {}
      else {}
    .ok
      { resolvedAs := (target, kind)
        definitions := definitions
        usages := usages.usages
        chains := chains.chains
        depthReached := chains.depthReached
        truncated := usages.truncated }

end Program

end ContractAtlas
