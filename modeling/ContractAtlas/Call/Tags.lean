import ContractAtlas.Call.Scope
import ContractAtlas.Settings.Basic

/-! Tags of calls that leave the contract and of calls that move assets. -/
namespace ContractAtlas

/-- Members that hand control to any address. -/
def isRawCall (name : String) : Bool :=
  name == "call" || name == "delegatecall" || name == "staticcall"

namespace Scope

/-- A receiver that is another contract: a cast, a variable, or an expression of its own. -/
def isExternalTarget (s : Scope) (target : String) : Bool :=
  looksLikeCast target.toList || s.knowsVariable target ||
    CallRules.externalTarget.occursIn target.toList

end Scope

namespace Node

/-- The tag of a call that leaves the contract; none when it stays inside or cannot be told. -/
def externalTag? (settings : Settings) (s : Scope) (call : Node) : Option String := do
  let site ← call.callSite?
  let name ← site.callee.name?
  if isRawCall name then return "low_level_call_" ++ name
  match site.callee.target? with
  | none =>
    if s.knowsFunction name then none
    else if settings.knownExternalFunctions.contains name then
      some ("possible_external_call_" ++ name)
    else none
  | some target =>
    if target = "this" then none
    else if s.attachedFunctions.contains name && !looksLikeCast target.toList then none
    else if s.isExternalTarget target then some ("external_call_" ++ name)
    else none

/-- What an external call of this name moves. -/
def transferCategory (name : String) (argumentCount : Nat) : String :=
  if name = "send" || (name = "transfer" && argumentCount = 1) then "eth_transfer"
  else if name = "transfer" || name = "transferFrom" || name = "safeTransfer" ||
      name = "safeTransferFrom" then "token_transfer"
  else if name = "mint" || name = "burn" then "token_mint_burn"
  else if name = "deposit" || name = "withdraw" then "asset_movement"
  else "asset_transfer_" ++ name

/-- The tag of a call that moves assets. Ether sent along decides first, then whether the call stays
inside. -/
def transferTag? (settings : Settings) (s : Scope) (call : Node) : Option String := do
  let site ← call.callSite?
  let name ← site.callee.name?
  if !settings.assetTransferFunctions.contains name then none
  else if CallRules.valueTransfer.occursIn call.text then some "eth_transfer"
  else
    let staysInside := match site.callee.target? with
      | none => s.knowsFunction name
      | some target => target = "this"
    if staysInside then some ("internal_transfer_" ++ name)
    else (call.externalTag? settings s).map fun _ => transferCategory name call.arguments.length

end Node

end ContractAtlas
