import ContractAtlas.Program.Declaration
import ContractAtlas.Pattern.CallRules

/-! Counts over the calls of one function. -/
namespace ContractAtlas

/-- Opcodes that leave the contract, counted over all assembly blocks. -/
structure OpcodeCounts where
  call : Nat := 0
  delegatecall : Nat := 0
  staticcall : Nat := 0
deriving DecidableEq

structure CallStatistics where
  /-- Source of every call inside a try statement. -/
  guardedCalls : List Text := []
  opcodes : OpcodeCounts := {}
  /-- Number of calls of each kind that occurs; calls without a kind count as unknown. -/
  kinds : List (CallKind × Nat) := []
  total : Nat := 0
deriving DecidableEq

namespace Node

/-- Sources of the assembly blocks of a tree. -/
def assemblyTexts (body : Node) : List Text :=
  (body.walk.filter fun v => v.node.kind == .assembly).map fun v => v.node.text

def opcodeCounts (body : Node) : OpcodeCounts :=
  let count := fun (r : Rule) =>
    body.assemblyTexts.foldr (fun t total => r.pattern.count t + total) 0
  { call := count CallRules.assemblyCall
    delegatecall := count CallRules.assemblyDelegatecall
    staticcall := count CallRules.assemblyStaticcall }

def callStatistics (body : Node) : CallStatistics :=
  let calls := body.walk.filter fun v => v.node.isCall
  let kinds := calls.map fun v => v.node.callKind?.getD .unknown
  { guardedCalls := (calls.filter fun v => v.ancestors.any (·.kind == .tryStatement)).map
      fun v => v.node.text
    opcodes := body.opcodeCounts
    kinds := (CallKind.all.map fun k => (k, kinds.count k)).filter fun entry => entry.2 != 0
    total := calls.length }

end Node

/-- Statistics of a function's body; all zero without one. -/
def Function.callStatistics (f : Function) : CallStatistics :=
  (f.body.map Node.callStatistics).getD {}

end ContractAtlas
