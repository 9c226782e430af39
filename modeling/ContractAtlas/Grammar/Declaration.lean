import ContractAtlas.Grammar.Directive
import ContractAtlas.Grammar.Lowered

/-! Contracts, their members and imports, read from the lowered tree of a file. -/
namespace ContractAtlas

/-- Something a contract or a file declares. -/
inductive Member
  | function (f : Function)
  | modifier (m : Modifier)
  | stateVariable (v : StateVariable)
  | event (e : EventDeclaration)
  | error (e : ErrorDeclaration)
  | struct (s : StructDeclaration)
  | enum (e : EnumDeclaration)
  | attachment (u : UsingClause)

namespace Contract

/-- Appends a member. -/
def add (c : Contract) : Member → Contract
  | .function f => { c with functions := c.functions ++ [{ f with contract := c.id }] }
  | .modifier m => { c with modifiers := c.modifiers ++ [{ m with contract := c.id }] }
  | .stateVariable v => { c with stateVariables := c.stateVariables ++ [v] }
  | .event e => { c with events := c.events ++ [e] }
  | .error e => { c with errors := c.errors ++ [e] }
  | .struct s => { c with structs := c.structs ++ [s] }
  | .enum e => { c with enums := c.enums ++ [e] }
  | .attachment u => { c with attachments := c.attachments ++ [u] }

end Contract

namespace Lowered

variable (s : TreeSource)

def kind (l : Lowered) : String := l.tree.kind

def name (l : Lowered) : String := s.nameOf l.tree

/-- Some child, token or not, is of this kind. -/
def hasPart (l : Lowered) (kind : String) : Bool := l.parts.any fun p => p.kind == kind

/-- The text of a field. -/
def fieldName? (l : Lowered) (name : String) : Option String :=
  (l.field? name).map fun p => s.nameOf p.tree

/-- The declared name: its field, or else the first identifier. -/
def declaredName (l : Lowered) : String :=
  match l.fieldName? s "name" with
  | some name => name
  | none =>
    match (content l.parts).find? fun p => p.kind == "identifier" with
    | some p => p.name s
    | none => "unnamed"

def parameter (l : Lowered) : Parameter :=
  { name := l.fieldName? s "name"
    type := (l.fieldName? s "type").getD "unknown"
    location := l.parts.findSome? fun p => DataLocation.ofName? (p.name s) }

/-- The parameters among the content of a tree. -/
def parameters (l : Lowered) : List Parameter :=
  ((content l.parts).filter fun p =>
    p.kind == "parameter" || p.kind == "event_parameter" || p.kind == "error_parameter").map
      (parameter s)

def isBody (l : Lowered) : Bool := l.kind == "function_body" || l.kind == "block_statement"

/-- The text before the first opening parenthesis. -/
def headOf (t : Text) : String := String.ofList (Text.trim ((Text.splitAt '(' t).headD []))

/-- What one child, token or not, says about the function it belongs to. -/
def describeFunction (f : Function) (p : Lowered) : Function :=
  let text := p.name s
  match p.kind with
  | "visibility" => { f with visibility := (Visibility.ofName? text).getD f.visibility }
  | "state_mutability" => { f with mutability := (Mutability.ofName? text).getD f.mutability }
  | "virtual" => { f with isVirtual := true }
  | "override_specifier" => { f with isOverride := true }
  | "modifier_invocation" => { f with modifiers := f.modifiers ++ [headOf text.toList] }
  | "parameter" => { f with parameters := f.parameters ++ [p.parameter s] }
  | "parameter_list" => { f with parameters := f.parameters ++ p.parameters s }
  | "return_type_definition" => { f with returns := p.parameters s }
  | "function_body" | "block_statement" => { f with body := some p.node }
  | _ =>
    match Visibility.ofName? text with
    | some visibility => { f with visibility := visibility }
    | none => if text = "payable" then { f with mutability := .payable } else f

/-- A function; functions of interfaces, fallbacks and receivers are external unless they say
otherwise. -/
def function (l : Lowered) (kind : FunctionKind) (inInterface : Bool) : Function :=
  let name := match kind with
    | .function => (l.fieldName? s "name").getD "unnamed"
    | kind => kind.name
  let isExternal := inInterface || kind == .fallback || kind == .receive
  l.parts.foldl (describeFunction s)
    { name := name
      kind := kind
      visibility := if isExternal then .externally else .internally
      span := s.spanOf l.tree
      excerpt := s.excerptOf l.tree }

def modifier (l : Lowered) : Modifier :=
  { name := l.declaredName s
    parameters := l.parameters s
    isVirtual := l.hasPart "virtual"
    isOverride := l.hasPart "override_specifier"
    body := (l.parts.find? isBody).map node
    span := s.spanOf l.tree
    excerpt := s.excerptOf l.tree }

/-- The value of a declaration: its field, or else what follows the equals sign. -/
def valuePart? (l : Lowered) : Option Lowered :=
  (l.field? "value").orElse fun _ => (l.parts.dropWhile fun p => p.kind != "=").tail.head?

def stateVariable (l : Lowered) : StateVariable :=
  let visibility := l.parts.foldl (fun v p =>
    if p.kind = "visibility" then (Visibility.ofName? (p.name s)).getD v else v) .internally
  { name := l.declaredName s
    type := (l.fieldName? s "type").getD "uint256"
    visibility := visibility
    isConstant := l.kind == "constant_variable_declaration" || l.hasPart "constant"
    isImmutable := l.hasPart "immutable"
    initialValue := l.valuePart?.map fun p => s.textOf p.tree
    initializer := l.valuePart?.map node
    span := s.spanOf l.tree
    excerpt := s.excerptOf l.tree }

mutual

/-- The members of a struct. Those of nested bodies come first, the last body's before the
others. -/
def structMembers : Lowered → List Parameter
  | ⟨_, _, parts⟩ =>
    nestedMembers parts ++
      ((content parts).filter fun p => p.kind == "struct_member").map (parameter s)

def nestedMembers : List Lowered → List Parameter
  | [] => []
  | p :: ps =>
    nestedMembers ps ++
      if p.isContent && p.kind == "struct_body" then structMembers p else []

end

/-- The values of an enum, written in it or in its body. -/
def enumValues (l : Lowered) : List String :=
  (content l.parts).flatMap fun p =>
    if p.kind = "enum_value" then [p.name s]
    else if p.kind = "enum_body" then
      ((content p.parts).filter fun v => v.kind == "enum_value").map (name s)
    else []

/-- The member that a tree declares, if it declares one. -/
def member? (inInterface : Bool) (l : Lowered) : Option Member :=
  match l.kind with
  | "function_definition" => some (.function (l.function s .function inInterface))
  | "constructor_definition" => some (.function (l.function s .constructor false))
  | "fallback_receive_definition" =>
    let isReceive := "receive".toList.isPrefixOf (s.textOf l.tree).trimStart
    some (.function (l.function s (if isReceive then .receive else .fallback) false))
  | "modifier_definition" => some (.modifier (l.modifier s))
  | "state_variable_declaration" | "constant_variable_declaration" =>
    some (.stateVariable (l.stateVariable s))
  | "event_definition" =>
    some (.event
      { name := l.declaredName s
        parameters := l.parameters s
        isAnonymous := l.hasPart "anonymous"
        span := s.spanOf l.tree
        excerpt := s.excerptOf l.tree })
  | "error_declaration" =>
    some (.error
      { name := l.declaredName s
        parameters := l.parameters s
        span := s.spanOf l.tree
        excerpt := s.excerptOf l.tree })
  | "struct_declaration" =>
    some (.struct
      { name := l.declaredName s
        members := l.structMembers s
        span := s.spanOf l.tree
        excerpt := s.excerptOf l.tree })
  | "enum_declaration" =>
    some (.enum
      { name := l.declaredName s
        values := l.enumValues s
        span := s.spanOf l.tree
        excerpt := s.excerptOf l.tree })
  | "using_directive" => (UsingClause.ofText? (s.textOf l.tree)).map .attachment
  | _ => none

/-- A base as written in the inheritance list, without constructor arguments. -/
def baseName (l : Lowered) : String := headOf (s.textOf ((l.field? "ancestor").getD l).tree)

/-- The tree that holds the members of a contract. -/
def contractBody? (l : Lowered) : Option Lowered :=
  (l.field? "body").orElse fun _ => (content l.parts).find? fun p => p.kind == "contract_body"

def contract (l : Lowered) (kind : ContractKind) : Contract :=
  let bases := (content l.parts).filter fun p => p.kind == "inheritance_specifier"
  let members := match l.contractBody? with
    | some body => (content body.parts).filterMap (member? s (kind == ContractKind.interface))
    | none => []
  members.foldl Contract.add
    { name := (l.fieldName? s "name").getD "UnnamedContract"
      kind := kind
      bases := bases.map (baseName s)
      file := s.file
      span := s.spanOf l.tree
      excerpt := s.excerptOf l.tree }

/-- The contract that a tree declares, if it declares one. -/
def contract? (l : Lowered) : Option Contract :=
  match l.kind with
  | "contract_declaration" =>
    some (l.contract s (if l.hasPart "abstract" then .abstract else .contract))
  | "interface_declaration" => some (l.contract s .interface)
  | "library_declaration" => some (l.contract s .library)
  | _ => none

/-- The members that a file declares outside any contract. -/
def fileMembers (l : Lowered) : List Member :=
  ((content l.parts).filter fun p =>
    p.kind != "contract_declaration" && p.kind != "interface_declaration" &&
      p.kind != "library_declaration").filterMap (member? s false)

/-- The contracts of a file in order. Members outside any contract are gathered in a last one, named
after the file. -/
def contracts (l : Lowered) : List Contract :=
  let declared := (content l.parts).filterMap (contract? s)
  match l.fileMembers s with
  | [] => declared
  | members =>
    declared ++ [members.foldl Contract.add
      { name := s.path, file := s.file, span := s.spanOf l.tree, excerpt := s.excerptOf l.tree }]

/-- The imports of a file in order. Statements that cannot be read are passed over. -/
def imports (l : Lowered) : Except ImportFault (List Import) := do
  let found ← ((content l.parts).filter fun p => p.kind == "import_directive").mapM fun p => do
    let read ← Import.ofText (s.textOf p.tree)
    return read.map fun i => { i with span := s.spanOf p.tree, excerpt := s.excerptOf p.tree }
  return found.filterMap id

end Lowered

end ContractAtlas
