import ContractAtlas.Pattern.Rule

/-! The rules that tell kinds of calls apart by their text. -/
namespace ContractAtlas.CallRules

open Pattern

def event : RuleSet :=
  ⟨"event", [⟨"emit", wordEdge ++ literal "emit" ++ space ++ word ++ opening⟩]⟩

private def assigned (opcode : String) : Pattern :=
  assemblyHead ++ literal "let" ++ space ++ word ++ gap ++ literal ":=" ++ gap ++ literal opcode ++
    opening

def assemblyDelegate : RuleSet :=
  ⟨"assembly_delegate", [
    ⟨"assembly_delegatecall", assemblyHead ++ callOf "delegatecall"⟩,
    ⟨"assembly_let_delegatecall", assigned "delegatecall"⟩]⟩

def assemblyStatic : RuleSet :=
  ⟨"assembly_static", [
    ⟨"assembly_staticcall", assemblyHead ++ callOf "staticcall"⟩,
    ⟨"assembly_let_staticcall", assigned "staticcall"⟩]⟩

def assembly : RuleSet := ⟨"assembly", [⟨"assembly_call", assemblyHead ++ callOf "call"⟩]⟩

def delegate : RuleSet := ⟨"delegate", [⟨"delegatecall", selects "delegatecall"⟩]⟩

def static : RuleSet := ⟨"static", [⟨"staticcall", selects "staticcall"⟩]⟩

/-- Calls on an address: raw calls, sends, and transfers of ether. -/
def lowLevel : RuleSet :=
  ⟨"low_level", [
    ⟨"call", selects "call"⟩,
    ⟨"send", exactly '.' ++ literal "send" ++ opening⟩,
    ⟨"payable_transfer", wordEdge ++ literal "payable" ++ gap ++ exactly '(' ++
      several (isNoneOf [')']) ++ exactly ')' ++ gap ++ literal ".transfer" ++ opening⟩,
    ⟨"literal_transfer", word ++ literal ".transfer" ++ opening ++ gap ++ several Text.isDigit ++
      gap ++ group (anyOf ["ether", "wei", "gwei"]) ++ wordEdge⟩]⟩

/-- Calls on another contract: through a cast, or of a token's usual members. -/
def interface : RuleSet :=
  ⟨"interface", [
    ⟨"interface_cast_call", wordEdge ++ exactly 'I' ++ capitalized ++ gap ++ parenthesized ++
      memberCall⟩,
    ⟨"contract_cast_call", wordEdge ++ capitalized ++ gap ++ parenthesized ++ memberCall⟩,
    ⟨"erc20_member_call", word ++ exactly '.' ++
      group (anyOf ["transfer", "balanceOf", "approve", "allowance"]) ++ opening⟩]⟩

/-- Functions and globals that every contract has. -/
def builtin : RuleSet :=
  ⟨"builtin", [
    ⟨"require", callOf "require"⟩,
    ⟨"assert", callOf "assert"⟩,
    ⟨"revert", callOf "revert"⟩,
    ⟨"keccak256", callOf "keccak256"⟩,
    ⟨"sha256", callOf "sha256"⟩,
    ⟨"sha3", callOf "sha3"⟩,
    ⟨"ripemd160", callOf "ripemd160"⟩,
    ⟨"ecrecover", callOf "ecrecover"⟩,
    ⟨"addmod", callOf "addmod"⟩,
    ⟨"mulmod", callOf "mulmod"⟩,
    ⟨"abi", wordEdge ++ literal "abi." ++
      group (anyOf ["encode", "encodePacked", "encodeWithSelector", "encodeWithSignature",
        "encodeCall", "decode"]) ++ opening⟩,
    ⟨"block", memberOf "block"⟩,
    ⟨"msg", memberOf "msg"⟩,
    ⟨"tx", memberOf "tx"⟩,
    ⟨"gasleft", callOf "gasleft"⟩]⟩

private def newHead : Pattern := wordEdge ++ literal "new" ++ space

def newArray : Rule :=
  ⟨"new_array", newHead ++ word ++ gap ++ exactly '[' ++ gap ++ digits ++ gap ++ exactly ']'⟩

def newElementary : Rule :=
  ⟨"new_elementary_type", newHead ++ group (anyOf ["bytes", "string"]) ++ opening⟩

def newContract : Rule := ⟨"new_contract", newHead ++ capitalized ++ opening⟩

def newStruct : Rule := ⟨"new_struct", newHead ++ capitalized ++ gap ++ exactly '{'⟩

def creation : RuleSet := ⟨"creation", [newArray, newElementary, newContract, newStruct]⟩

def typeConversion : RuleSet :=
  ⟨"type_conversion", [
    ⟨"elementary_cast", wordEdge ++
      group (literal "address" <|> literal "uint" ++ digits <|> literal "int" ++ digits <|>
        literal "bytes" ++ digits <|> literal "bool" <|> literal "string") ++ opening⟩,
    ⟨"payable_cast", callOf "payable"⟩]⟩

def tryCatch : RuleSet :=
  ⟨"try_catch", [
    ⟨"try_member_call", wordEdge ++ literal "try" ++ space ++ word ++ exactly '.' ++
      one (fun c => c.isAlpha || c == '_') ++ wordRest ++ opening⟩,
    ⟨"try_cast_call", wordEdge ++ literal "try" ++ space ++ capitalized ++ gap ++
      parenthesized ++ memberCall⟩,
    ⟨"try_new", wordEdge ++ literal "try" ++ space ++ literal "new" ++ space ++ word ++ opening⟩]⟩

def assemblyCall : Rule := ⟨"call", callOf "call"⟩

def assemblyDelegatecall : Rule := ⟨"delegatecall", callOf "delegatecall"⟩

def assemblyStaticcall : Rule := ⟨"staticcall", callOf "staticcall"⟩

/-- Opcodes of an assembly block that leave the contract. -/
def opcodes : RuleSet := ⟨"yul_calls", [assemblyCall, assemblyDelegatecall, assemblyStaticcall]⟩

/-- Receivers that cannot be the current contract. -/
def externalTarget : RuleSet :=
  ⟨"external_target", [
    ⟨"index_access", exactly '['⟩,
    ⟨"member_access", exactly '.'⟩,
    ⟨"address_cast", callOf "address"⟩,
    ⟨"payable_cast", callOf "payable"⟩]⟩

/-- Ether sent along with a call. -/
def valueTransfer : RuleSet :=
  ⟨"value_transfer", [
    ⟨"value_option", exactly '{' ++ without ['}'] ++ wordEdge ++ literal "value" ++
      gap ++ exactly ':'⟩,
    ⟨"msg_value", wordEdge ++ literal "msg.value" ++ wordEdge⟩]⟩

def qualifier : RuleSet :=
  ⟨"call_qualifier", [
    ⟨".call", selects "call"⟩,
    ⟨".delegatecall", selects "delegatecall"⟩,
    ⟨".staticcall", selects "staticcall"⟩,
    ⟨".send", literal ".send" ++ opening⟩,
    ⟨".transfer", literal ".transfer" ++ opening⟩]⟩

/-- Every rule set: those of the classification in order of priority, then the others. -/
def all : List RuleSet :=
  [event, assemblyDelegate, assemblyStatic, assembly, delegate, static, lowLevel,
    interface, builtin, creation, typeConversion, tryCatch, opcodes, externalTarget, valueTransfer,
    qualifier]

end ContractAtlas.CallRules
