import ContractAtlas.Text.Blank
import ContractAtlas.Text.Search

/-! What can be looked up, and under which names. -/
namespace ContractAtlas

inductive SymbolKind
  | function
  | stateVariable
  | modifier
  | event
  | error
  | struct
  | enum
  | contract
deriving DecidableEq

namespace SymbolKind

def name : SymbolKind → String
  | function => "function"
  | stateVariable => "variable"
  | modifier => "modifier"
  | event => "event"
  | error => "error"
  | struct => "struct"
  | enum => "enum"
  | contract => "contract"

def all : List SymbolKind :=
  [function, stateVariable, modifier, event, error, struct, enum, contract]

def ofName? (s : String) : Option SymbolKind := all.find? fun k => k.name == s

@[simp] theorem ofName?_name (k : SymbolKind) : ofName? k.name = some k := by cases k <;> rfl

end SymbolKind

/-- A name, perhaps with the contract that declares it. -/
structure QualifiedName where
  contract : Option String := none
  name : String
deriving DecidableEq

namespace QualifiedName

/-- Reads `name` or `Contract.name`; neither part may be empty. -/
def ofText? (t : Text) : Option QualifiedName :=
  match Text.splitAt '.' t.trim with
  | [name] => if name.isEmpty then none else some { name := String.ofList name }
  | [contract, name] =>
    if contract.isEmpty || name.isEmpty then none
    else some { contract := some (String.ofList contract), name := String.ofList name }
  | _ => none

/-- The same name with an underscore in front, as private counterparts are named. -/
def underscored (q : QualifiedName) : String :=
  match q.contract with
  | some contract => contract ++ "._" ++ q.name
  | none => "_" ++ q.name

end QualifiedName

/-- Why a lookup finds nothing. -/
inductive LookupError
  | malformed (target : String)
  | notFound (target : String) (kind : SymbolKind)
  | functionNotFound (target : String)
deriving DecidableEq

namespace LookupError

def message : LookupError → String
  | malformed target => s!"Malformed target name '{target}'"
  | notFound target kind => s!"Target element '{target}' of type '{kind.name}' not found"
  | functionNotFound target => s!"Function '{target}' not found"

end LookupError

end ContractAtlas
