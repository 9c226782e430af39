import ContractAtlas.Pattern.Glob
import ContractAtlas.Pattern.Shapes
import ContractAtlas.Program.Basic
import ContractAtlas.Symbol.Kind

/-! The declarations of a program, by kind and name, in load order. -/
namespace ContractAtlas

/-- A declaration and the contract that makes it. -/
structure Declaration where
  name : String
  contract : Contract
  function : Option Function := none
  span : Span
  source : Text
  isOverride : Bool := false

namespace Contract

/-- The declarations of one kind that a contract makes, itself included. -/
def declarations (c : Contract) : SymbolKind → List Declaration
  | .function => c.functions.map fun f =>
    { name := f.name, contract := c, function := some f, span := f.span, source := f.source,
      isOverride := f.isOverride || Shapes.overrideKeyword.occursIn f.source }
  | .modifier => c.modifiers.map fun m =>
    { name := m.name, contract := c, span := m.span, source := m.excerpt.text,
      isOverride := m.isOverride || Shapes.overrideKeyword.occursIn m.excerpt.text }
  | .stateVariable => c.stateVariables.map fun v =>
    { name := v.name, contract := c, span := v.span, source := v.excerpt.text }
  | .event => c.events.map fun e =>
    { name := e.name, contract := c, span := e.span, source := e.excerpt.text }
  | .error => c.errors.map fun e =>
    { name := e.name, contract := c, span := e.span, source := e.excerpt.text }
  | .struct => c.structs.map fun s =>
    { name := s.name, contract := c, span := s.span, source := s.excerpt.text }
  | .enum => c.enums.map fun e =>
    { name := e.name, contract := c, span := e.span, source := e.excerpt.text }
  | .contract => [{ name := c.name, contract := c, span := c.span, source := c.excerpt.text }]

end Contract

namespace Program

/-- The declarations of a name, in the named contracts if it is qualified. -/
def declarationsOf (p : Program) (q : QualifiedName) (kind : SymbolKind) : List Declaration :=
  (p.contracts.filter fun c => q.contract.all (· == c.name)).flatMap fun c =>
    (c.declarations kind).filter fun d => d.name == q.name

end Program

/-- Restrictions of a search; an empty list restricts nothing. -/
structure Filters where
  contracts : List String := []
  /-- Parts of the file path, or wildcard patterns for the whole path. -/
  files : List String := []
deriving DecidableEq, Inhabited

namespace Filters

variable [SearchEngine]

def acceptsFile (f : Filters) (path : Text) : Bool :=
  f.files.isEmpty || f.files.any fun pattern =>
    Text.contains path pattern.toList || (Glob.ofText pattern.toList).accepts false path

def accepts (f : Filters) (c : Contract) (path : String) : Bool :=
  (f.contracts.isEmpty || f.contracts.contains c.name) && f.acceptsFile path.toList

end Filters

end ContractAtlas
