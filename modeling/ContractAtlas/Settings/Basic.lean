import ContractAtlas.NameSet

/-! Limits and name lists of the analyses. -/
namespace ContractAtlas

/-- What a caller may set. Numbers are 64-bit words. -/
structure Settings where
  /-- Most usages that one search returns. -/
  maxUsages : UInt64 := 100
  maxCallChainDepth : UInt64 := 5
  maxFlowDepth : UInt64 := 5
  maxFlowPathDepth : UInt64 := 10
  /-- Longest snippet, in characters. -/
  snippetLength : UInt64 := 200
  /-- Lines of context on each side of a usage. -/
  contextLines : UInt64 := 1
  knownLibraries : NameSet := .ofList ["SafeMath", "Math", "Strings", "Address", "Arrays"]
  knownExternalFunctions : NameSet := .ofList ["transfer", "transferFrom", "approve", "send",
    "call", "delegatecall", "staticcall", "balanceOf", "allowance", "safeTransfer",
    "safeTransferFrom", "deposit", "withdraw", "mint", "burn", "swap"]
  assetTransferFunctions : NameSet := .ofList ["send", "transfer", "transferFrom", "safeTransfer",
    "safeTransferFrom", "deposit", "withdraw", "mint", "burn"]
deriving DecidableEq, Inhabited

namespace Settings

/-- The settings by name, in the order in which they are written. -/
inductive Field
  | maxUsages
  | maxCallChainDepth
  | maxFlowDepth
  | maxFlowPathDepth
  | snippetLength
  | contextLines
  | knownLibraries
  | knownExternalFunctions
  | assetTransferFunctions
deriving DecidableEq

namespace Field

def all : List Field :=
  [maxUsages, maxCallChainDepth, maxFlowDepth, maxFlowPathDepth, snippetLength, contextLines,
    knownLibraries, knownExternalFunctions, assetTransferFunctions]

def key : Field → String
  | maxUsages => "max_usages"
  | maxCallChainDepth => "max_call_chain_depth"
  | maxFlowDepth => "max_flow_depth"
  | maxFlowPathDepth => "max_flow_path_depth"
  | snippetLength => "snippet_length"
  | contextLines => "context_lines"
  | knownLibraries => "known_libraries"
  | knownExternalFunctions => "known_external_functions"
  | assetTransferFunctions => "asset_transfer_functions"

def ofKey? (key : String) : Option Field := all.find? fun f => f.key == key

@[simp] theorem ofKey?_key (f : Field) : ofKey? f.key = some f := by cases f <;> rfl

end Field

/-- A setting's value. -/
inductive Value
  | number (n : UInt64)
  | names (s : NameSet)
deriving DecidableEq

def get (s : Settings) : Field → Value
  | .maxUsages => .number s.maxUsages
  | .maxCallChainDepth => .number s.maxCallChainDepth
  | .maxFlowDepth => .number s.maxFlowDepth
  | .maxFlowPathDepth => .number s.maxFlowPathDepth
  | .snippetLength => .number s.snippetLength
  | .contextLines => .number s.contextLines
  | .knownLibraries => .names s.knownLibraries
  | .knownExternalFunctions => .names s.knownExternalFunctions
  | .assetTransferFunctions => .names s.assetTransferFunctions

/-- Sets a field, unless the value is of the other sort. -/
def set? (s : Settings) : Field → Value → Option Settings
  | .maxUsages, .number n => some { s with maxUsages := n }
  | .maxCallChainDepth, .number n => some { s with maxCallChainDepth := n }
  | .maxFlowDepth, .number n => some { s with maxFlowDepth := n }
  | .maxFlowPathDepth, .number n => some { s with maxFlowPathDepth := n }
  | .snippetLength, .number n => some { s with snippetLength := n }
  | .contextLines, .number n => some { s with contextLines := n }
  | .knownLibraries, .names ns => some { s with knownLibraries := ns }
  | .knownExternalFunctions, .names ns => some { s with knownExternalFunctions := ns }
  | .assetTransferFunctions, .names ns => some { s with assetTransferFunctions := ns }
  | _, _ => none

end Settings

end ContractAtlas
