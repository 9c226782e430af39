import ContractAtlas.Pattern.Rule

/-! Shapes of call texts, of their parts and of literals, with groups around what is read off. -/
namespace ContractAtlas.Shapes

open Pattern

/-- A member call on a capitalised name, which is the group. -/
def libraryCall : Pattern :=
  textStart ++ group capitalized ++ exactly '.' ++ word ++ opening

def interfaceCast : Pattern := exactly 'I' ++ capitalized ++ gap ++ parenthesized

def simpleCall : Pattern :=
  textStart ++ one (fun c => c.isLower || c == '_') ++ wordRest ++ opening

def memberCall : Pattern := textStart ++ word ++ exactly '.' ++ word ++ opening

/-- A receiver written as a cast. -/
def castTarget : Pattern := textStart ++ capitalized ++ opening

/-- A whole text that names an elementary type. -/
def typeName : Pattern :=
  textStart ++ group (literal "address" <|> literal "payable" <|> literal "bool" <|>
    literal "string" <|> literal "bytes" ++ digits <|>
    optional (exactly 'u') ++ literal "int" ++ digits) ++ textEnd

def calleeSimple : Pattern := textStart ++ group word ++ opening

def calleeMember : Pattern := exactly '.' ++ group word ++ openingOrBrace

def calleeInterface : Pattern := parenthesized ++ exactly '.' ++ group word ++ opening

/-- A named call option; its value is the group and runs to the next comma or closing brace. -/
def option (name : String) : Pattern :=
  wordEdge ++ literal name ++ gap ++ exactly ':' ++ gap ++ group (several (isNoneOf [',', '}']))

/-- A named call option inside a brace. -/
def bracedOption (name : String) : Pattern := exactly '{' ++ without ['}'] ++ option name

/-- A cast at the start whose value is used at once; the group is the contract's name. -/
def castContractName : Pattern :=
  textStart ++ group capitalized ++ gap ++ parenthesized ++ exactly '.'

/-- Arguments given by name at the end of a call; the group is the text between the braces. -/
def namedArguments : Pattern :=
  exactly '(' ++ gap ++ exactly '{' ++ group (without ['{', '}']) ++ exactly '}' ++ gap ++
    exactly ')' ++ gap ++ textEnd

/-- One argument given by name: the groups are its name and its value. -/
def namedArgument : Pattern :=
  textStart ++ gap ++ group word ++ gap ++ exactly ':' ++ gap ++
    group (one (· != '\n') ++ few (· != '\n')) ++ gap ++ textEnd

def uintLiteral : Pattern := textStart ++ several Text.isDigit ++ textEnd

private def isHexDigit (c : Char) : Bool :=
  c.isDigit || ('a' ≤ c && c ≤ 'f') || ('A' ≤ c && c ≤ 'F')

def hexLiteral : Pattern := textStart ++ literal "0x" ++ several isHexDigit ++ textEnd

/-- A member that is always an address. -/
def addressMember : Pattern :=
  exactly '.' ++ group (anyOf ["sender", "origin"]) ++ gap ++ textEnd

def overrideKeyword : Pattern := wordEdge ++ literal "override" ++ wordEdge

/-- An import path or an imported name that looks like an interface. -/
def interfaceImport : Pattern :=
  literal "interface" <|> literal "Interface" <|> literal "IERC" <|> exactly 'I' ++ one Char.isUpper

/-- The shapes with the names they are reported under. -/
def all : List Rule := [
  ⟨"library_call", libraryCall⟩,
  ⟨"interface_cast", interfaceCast⟩,
  ⟨"simple_call", simpleCall⟩,
  ⟨"member_call", memberCall⟩,
  ⟨"cast_target", castTarget⟩,
  ⟨"type_name", typeName⟩,
  ⟨"callee_simple", calleeSimple⟩,
  ⟨"callee_member", calleeMember⟩,
  ⟨"callee_interface", calleeInterface⟩,
  ⟨"call_value", bracedOption "value"⟩,
  ⟨"call_value_loose", option "value"⟩,
  ⟨"call_gas", bracedOption "gas"⟩,
  ⟨"call_gas_loose", option "gas"⟩,
  ⟨"call_salt", option "salt"⟩,
  ⟨"cast_contract_name", castContractName⟩,
  ⟨"named_arguments", namedArguments⟩,
  ⟨"named_argument", namedArgument⟩,
  ⟨"uint_literal", uintLiteral⟩,
  ⟨"hex_literal", hexLiteral⟩,
  ⟨"address_member", addressMember⟩,
  ⟨"override_keyword", overrideKeyword⟩,
  ⟨"interface_import", interfaceImport⟩]

end ContractAtlas.Shapes
