/-! Kinds of calls and what each means for the caller. -/
namespace ContractAtlas

/-- What a call does, as far as its text and surroundings tell. -/
inductive CallKind
  | external
  | internal
  | library
  | lowLevel
  | publicFunction
  | privateFunction
  | event
  | builtin
  | newArray
  | newElementary
  | newStruct
  | newContract
  | conversion
  | assembly
  | delegate
  | static
  | unknown
deriving DecidableEq, Inhabited

namespace CallKind

def name : CallKind → String
  | external => "external"
  | internal => "internal"
  | library => "library"
  | lowLevel => "low_level"
  | publicFunction => "public"
  | privateFunction => "private"
  | event => "event"
  | builtin => "solidity"
  | newArray => "new_arr"
  | newElementary => "new_elementary_type"
  | newStruct => "new_struct"
  | newContract => "new_contract"
  | conversion => "type_conversion"
  | assembly => "assembly"
  | delegate => "delegate"
  | static => "static"
  | unknown => "unknown"

/-- Every kind, in the order in which they are listed. -/
def all : List CallKind :=
  [external, internal, library, lowLevel, publicFunction, privateFunction, event, builtin, newArray,
    newElementary, newStruct, newContract, conversion, assembly, delegate, static, unknown]

theorem mem_all (k : CallKind) : k ∈ all := by cases k <;> decide

def ofName? (s : String) : Option CallKind := all.find? fun k => k.name == s

@[simp] theorem ofName?_name (k : CallKind) : ofName? k.name = some k := by cases k <;> rfl

/-- Control may leave the current contract. -/
def leavesContract : CallKind → Bool
  | external | lowLevel | delegate | static => true
  | _ => false

/-- The call makes a value or a contract. -/
def isCreation : CallKind → Bool
  | newArray | newElementary | newStruct | newContract => true
  | _ => false

end CallKind

/-- What a kind of call means for its caller. -/
structure CallTraits where
  isExternal : Option Bool
  gasCost : String
  trust : String
  canReenter : Option Bool
  description : String
deriving DecidableEq

namespace CallKind

def traits : CallKind → CallTraits
  | external => ⟨some true, "high", "untrusted", some true, "External contract call"⟩
  | internal | privateFunction =>
    ⟨some false, "low", "trusted", some false, "Internal function call"⟩
  | publicFunction => ⟨some false, "low", "trusted", some false, "Public function call"⟩
  | library => ⟨some false, "low", "trusted", some false, "Library function call"⟩
  | lowLevel =>
    ⟨some true, "variable", "untrusted", some true, "Low-level call (.call, .send, .transfer)"⟩
  | delegate =>
    ⟨some true, "high", "dangerous", some true, "Delegate call (executes in current context)"⟩
  | static => ⟨some true, "medium", "safe", some false, "Static call (read-only)"⟩
  | event => ⟨some false, "medium", "safe", some false, "Event emission"⟩
  | builtin => ⟨some false, "low", "trusted", some false, "Built-in Solidity function"⟩
  | newContract => ⟨some true, "high", "trusted", some false, "Contract creation"⟩
  | newArray | newElementary | newStruct =>
    ⟨some false, "medium", "trusted", some false, "Memory allocation"⟩
  | conversion => ⟨some false, "low", "trusted", some false, "Type conversion"⟩
  | assembly => ⟨some true, "variable", "dangerous", some true, "Inline assembly call"⟩
  | unknown => ⟨none, "unknown", "unknown", none, "Unknown call type: unknown"⟩

end CallKind

end ContractAtlas
