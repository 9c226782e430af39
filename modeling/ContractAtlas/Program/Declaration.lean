import ContractAtlas.NameSet
import ContractAtlas.Program.Keyword
import ContractAtlas.Program.Node

/-! Contracts and what they declare. -/
namespace ContractAtlas

/-- A parameter, a return value or a struct member. -/
structure Parameter where
  name : Option String := none
  type : String
  location : Option DataLocation := none
deriving DecidableEq

/-- What a function's own calls do: tags of the calls that leave the contract and of the asset
movements, and whether there are any. -/
structure CallSummary where
  hasExternalCalls : Bool := false
  externalTargets : NameSet := ∅
  hasTransfers : Bool := false
  transfers : NameSet := ∅
deriving DecidableEq, Inhabited

/-- The summary with these tags. -/
def CallSummary.ofTags (externalTargets transfers : NameSet) : CallSummary where
  hasExternalCalls := !externalTargets.isEmpty
  externalTargets := externalTargets
  hasTransfers := !transfers.isEmpty
  transfers := transfers

structure Function where
  name : String
  kind : FunctionKind := .function
  visibility : Visibility := .internally
  mutability : Mutability := .nonpayable
  parameters : List Parameter := []
  returns : List Parameter := []
  modifiers : List String := []
  isVirtual : Bool := false
  isOverride : Bool := false
  body : Option Node := none
  /-- Number of the owning contract. -/
  contract : Nat := 0
  span : Span := {}
  excerpt : Excerpt := {}
  summary : CallSummary := {}

namespace Function

def source (f : Function) : Text := f.excerpt.text

/-- The name with the declared parameter types. -/
def signature (f : Function) : String :=
  f.name ++ "(" ++ ",".intercalate (f.parameters.map Parameter.type) ++ ")"

def isConstructor (f : Function) : Bool := f.kind == .constructor

/-- Names of the named parameters. -/
def parameterNames (f : Function) : List String := f.parameters.filterMap Parameter.name

/-- Names that the body calls, if there is a body. -/
def calledNames (f : Function) : List String := (f.body.map Node.calledNames).getD []

end Function

structure Modifier where
  name : String
  parameters : List Parameter := []
  isVirtual : Bool := false
  isOverride : Bool := false
  body : Option Node := none
  /-- Number of the owning contract. -/
  contract : Nat := 0
  span : Span := {}
  excerpt : Excerpt := {}

structure StateVariable where
  name : String
  type : String := "uint256"
  visibility : Visibility := .internally
  isConstant : Bool := false
  isImmutable : Bool := false
  /-- The initialiser as written. -/
  initialValue : Option Text := none
  initializer : Option Node := none
  span : Span := {}
  excerpt : Excerpt := {}

structure EventDeclaration where
  name : String
  parameters : List Parameter := []
  isAnonymous : Bool := false
  span : Span := {}
  excerpt : Excerpt := {}

structure ErrorDeclaration where
  name : String
  parameters : List Parameter := []
  span : Span := {}
  excerpt : Excerpt := {}

structure StructDeclaration where
  name : String
  members : List Parameter := []
  span : Span := {}
  excerpt : Excerpt := {}

structure EnumDeclaration where
  name : String
  values : List String := []
  span : Span := {}
  excerpt : Excerpt := {}

/-- A library attached to a type, or to every type when the target is a star. -/
structure UsingClause where
  library : String
  target : String
deriving DecidableEq

structure Contract where
  /-- Place in load order. -/
  id : Nat := 0
  name : String
  kind : ContractKind := .contract
  /-- Names of the direct bases as written. -/
  bases : List String := []
  functions : List Function := []
  stateVariables : List StateVariable := []
  modifiers : List Modifier := []
  events : List EventDeclaration := []
  errors : List ErrorDeclaration := []
  structs : List StructDeclaration := []
  enums : List EnumDeclaration := []
  attachments : List UsingClause := []
  file : Nat := 0
  span : Span := {}
  excerpt : Excerpt := {}

namespace Contract

def isInterface (c : Contract) : Bool := c.kind == .interface

def isLibrary (c : Contract) : Bool := c.kind == .library

/-- The contract under number `id`, with its functions and modifiers pointing back to it. -/
def numbered (c : Contract) (id : Nat) : Contract :=
  { c with
    id := id
    functions := c.functions.map fun f => { f with contract := id }
    modifiers := c.modifiers.map fun m => { m with contract := id } }

def function? (c : Contract) (name : String) : Option Function := c.functions.find? (·.name == name)

def functionsNamed (c : Contract) (name : String) : List Function :=
  c.functions.filter (·.name == name)

def stateVariable? (c : Contract) (name : String) : Option StateVariable :=
  c.stateVariables.find? (·.name == name)

def modifier? (c : Contract) (name : String) : Option Modifier := c.modifiers.find? (·.name == name)

def event? (c : Contract) (name : String) : Option EventDeclaration :=
  c.events.find? (·.name == name)

end Contract

end ContractAtlas
