import ContractAtlas.Call.Detection
import ContractAtlas.Call.Selector
import ContractAtlas.Entries
import ContractAtlas.Program.Node

/-! Facts about one call, read off its node and its text. -/
namespace ContractAtlas

/-- An argument with the type guessed from its text. -/
structure Argument where
  index : Nat
  value : Text
  type : String
  source : Text
deriving DecidableEq

structure CallFacts where
  name : Option String
  signature : Option String
  kind : CallKind
  arguments : List Argument
  value : Option Text
  gas : Option Text
  salt : Option Text
  /-- Contract named by a cast in front of the call. -/
  contract : Option Text
  qualifier : Option String
  /-- Arguments given by name, each name once. -/
  namedArguments : Entries Text Text
  selector : Option String
  source : Text
deriving DecidableEq

/-- The type of a literal or of a well-known member; anything else is unknown. -/
def argumentType (source : Text) : String :=
  let t := source.trim
  if Shapes.uintLiteral.occursIn t then "uint256"
  else if Shapes.hexLiteral.occursIn t then if t.byteSize = 42 then "address" else "bytes"
  else if 2 ≤ t.byteSize && t.head? == some '"' && t.getLast? == some '"' then "string"
  else if t = "true".toList || t = "false".toList then "bool"
  else if Shapes.addressMember.occursIn t then "address"
  else "unknown"

namespace CallFacts

/-- The name in front of the arguments, read from text alone. -/
def nameInText? (t : Text) : Option Text :=
  [Shapes.calleeSimple, Shapes.calleeMember, Shapes.calleeInterface].findSome? (·.capture? t)

/-- Arguments of the form `name: value` in braces at the end of a call, divided at every comma. -/
def namedArgumentsIn (t : Text) : Entries Text Text :=
  match Shapes.namedArguments.find? t with
  | none => []
  | some found =>
    Entries.ofList ((Text.splitAt ',' (found.groups.headD [])).filterMap fun piece => do
      let entry ← Shapes.namedArgument.find? piece
      let key ← entry.groups[0]?
      let value ← entry.groups[1]?
      return (key, value))

/-- An option read inside braces, or else anywhere. -/
def option? (name : String) (t : Text) : Option Text :=
  ((Shapes.bracedOption name).capture? t).orElse fun _ => (Shapes.option name).capture? t

def argumentsOf (call : Node) : List Argument :=
  call.arguments.mapIdx fun i n => ⟨i, n.text.trim, argumentType n.text.trim, n.text⟩

/-- The callee is a type, names one, or the call makes something; such calls have no selector. -/
def isConversionOrCreation (call : Node) (name : Option String) (kind : CallKind) : Bool :=
  (match call.callee?.map Node.kind with
    | some (.elementaryType _) | some (.creation _) => true
    | _ => false) ||
  name.any (fun n => Shapes.typeName.occursIn n.toList) ||
  kind == .conversion || kind.isCreation

/-- All facts about a call; a recorded kind wins over the text. -/
def ofNode (known : NameSet) (call : Node) : CallFacts :=
  let source := call.text
  let kind := match call.callKind? with
    | some kind => kind
    | none => CallKind.detect known none source
  let name := (call.callSite?.bind fun site => site.callee.name?).orElse fun _ =>
    (nameInText? source).map String.ofList
  let arguments := argumentsOf call
  let signature := name.map fun n =>
    n ++ "(" ++ ",".intercalate (arguments.map Argument.type) ++ ")"
  { name, kind, arguments, signature, source
    value := option? "value" source
    gas := option? "gas" source
    salt := (Shapes.option "salt").capture? source
    contract := Shapes.castContractName.capture? source
    qualifier := (CallRules.qualifier.first? source).map Rule.name
    namedArguments := namedArgumentsIn source
    selector :=
      if isConversionOrCreation call name kind || arguments.any (·.type == "unknown") then none
      else signature.map selectorOf }

/-- Gas, value and salt, in this order, as far as they are given. -/
def specialOptions (f : CallFacts) : List (String × Text) :=
  [("gas", f.gas), ("value", f.value), ("salt", f.salt)].filterMap fun (key, value) =>
    value.map fun v => (key, v)

end CallFacts

end ContractAtlas
