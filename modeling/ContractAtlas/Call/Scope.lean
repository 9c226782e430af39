import ContractAtlas.Call.Detection
import ContractAtlas.Program.Basic

/-! What one contract declares and inherits, as far as telling calls apart needs it. -/
namespace ContractAtlas

structure Scope where
  contract : Nat := 0
  ownFunctions : NameSet := ∅
  inheritedFunctions : NameSet := ∅
  ownVariables : NameSet := ∅
  /-- Parameters, return values and local variables of the function at hand. -/
  locals : NameSet := ∅
  /-- Libraries that the contract attaches. -/
  attachedLibraries : NameSet := ∅
  /-- Every library of the program. -/
  programLibraries : NameSet := ∅
  /-- Functions of the loaded libraries that the contract attaches. -/
  attachedFunctions : NameSet := ∅
  /-- Declared visibilities, own functions first and then the bases', nearest first. -/
  visibilities : List (String × Visibility) := []
deriving Inhabited

namespace Scope

/-- The declared visibility of each function. -/
def visibilitiesOf (fs : List Function) : List (String × Visibility) :=
  fs.map fun f => (f.name, f.visibility)

/-- The scope of `c` under a number, from the contracts that it inherits from, nearest first, and
all libraries. -/
def assemble (id : Nat) (c : Contract) (ancestors libraries : List Contract) : Scope :=
  let inherited := ancestors.flatMap Contract.functions
  let attached := NameSet.ofList (c.attachments.map UsingClause.library)
  { contract := id
    ownFunctions := .ofList (c.functions.map Function.name)
    inheritedFunctions := .ofList (inherited.map Function.name)
    ownVariables := .ofList (c.stateVariables.map StateVariable.name)
    attachedLibraries := attached
    programLibraries := .ofList (libraries.map Contract.name)
    attachedFunctions := .ofList
      (((libraries.filter fun l => attached.contains l.name).flatMap Contract.functions).map
        Function.name)
    visibilities := visibilitiesOf c.functions ++ visibilitiesOf inherited }

/-- The scope of a contract; an unknown contract has an empty one. -/
def ofContract (p : Program) (id : Nat) : Scope :=
  match p.contract? id with
  | none => { contract := id }
  | some c =>
    assemble id c ((p.ancestors id).filterMap p.contract?) (p.contracts.filter Contract.isLibrary)

/-- Names declared inside a body. -/
def declaredNames (body : Node) : List String :=
  body.descendants.flatMap fun n =>
    match n.kind with
    | .declaration names => names
    | _ => []

/-- The same scope with the names of a function's parameters, return values and declarations. -/
def within (s : Scope) (f : Function) : Scope :=
  { s with
    locals := .ofList ((f.parameters ++ f.returns).filterMap Parameter.name ++
      (f.body.map declaredNames).getD []) }

/-- An own or inherited function of this name exists. -/
def knowsFunction (s : Scope) (name : String) : Bool :=
  s.ownFunctions.contains name || s.inheritedFunctions.contains name

/-- A state variable or a local of this name exists. -/
def knowsVariable (s : Scope) (name : String) : Bool :=
  s.ownVariables.contains name || s.locals.contains name

/-- Visibility of the nearest function of this name. -/
def visibilityOf (s : Scope) (name : String) : Option Visibility := s.visibilities.lookup name

/-- Hints for a call, `bare` being the callee's name if it has no receiver. -/
def hints (s : Scope) (bare : Option String) : Hints :=
  { visibility := bare.bind s.visibilityOf
    libraries := s.attachedLibraries.union s.programLibraries }

end Scope

/-- Receivers that are written as casts. -/
def looksLikeCast (target : Text) : Bool :=
  Shapes.interfaceCast.occursIn target || Shapes.castTarget.occursIn target

end ContractAtlas
