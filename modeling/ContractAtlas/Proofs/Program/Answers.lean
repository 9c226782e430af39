import ContractAtlas.Import.Graph
import ContractAtlas.Import.Usage
import ContractAtlas.Proofs.Variable.Frame

/-! Everything that can be asked about the symbols, the variables and the imports of a program. No
answer depends on what analyses have left in the program, so an analysis goes unnoticed. -/
namespace ContractAtlas

namespace Program

section Imports
variable (p : Program)

theorem dependencies_unanalysed (contract : String) :
    p.unanalysed.dependencies contract = p.dependencies contract := by
  have hnamed : p.unanalysed.contractNamed? contract =
      (p.contractNamed? contract).map Contract.unanalysed :=
    @contractNamed?_map p p.unanalysed _ rfl rfl contract
  rw [dependencies, dependencies, hnamed]
  cases p.contractNamed? contract with
  | none => rfl
  | some c => rfl

variable [SearchEngine]

theorem importUsages_unanalysed (pattern : String) :
    p.unanalysed.importUsages pattern = p.importUsages pattern := by
  have hcontracts : p.unanalysed.contracts = p.contracts.map Contract.unanalysed := rfl
  have hfunctions : ∀ c : Contract, c.unanalysed.functions.filter (·.body.isSome) =
      (c.functions.filter (·.body.isSome)).map Function.unanalysed := fun c => by
    simp only [Contract.unanalysed, List.filter_map, Function.comp_def, Function.unanalysed,
      Option.isSome_map]
  simp only [importUsages, hcontracts, List.flatMap_map, hfunctions]
  rfl

theorem contractsUsing_unanalysed (patterns : List String) :
    p.unanalysed.contractsUsing patterns = (p.contractsUsing patterns).map Contract.unanalysed :=
  List.filter_map

theorem functionsUsing_unanalysed (patterns : List String) :
    p.unanalysed.functionsUsing patterns = (p.functionsUsing patterns).map Function.unanalysed := by
  simp only [functionsUsing, functions_unanalysed, List.filter_map, Function.comp_def,
    Function.unanalysed, Option.isSome_map]
  rfl

end Imports

/-- What a program says about its symbols, variables and imports, for every way to ask. -/
structure Answers where
  definitions : String → SymbolKind → Except LookupError (List Definition)
  usages : Settings → String → SymbolKind → Direction → Filters → Except LookupError Usages
  callChains : String → Nat → Except LookupError CallChains
  references : Settings → ReferenceQuery → Except LookupError ReferenceReport
  /-- The flow graph of each function, contract by contract. -/
  flowGraphs : List (List FlowGraph)
  /-- What a log says about each function once it has the function, and all it says then. -/
  tracked : VariableLog → List (List (List VariableReference × VariableLog))
  importsMatching : String → List Import
  dependencies : String → ContractDependencies
  importUsages : String → List ImportUsage
  pathDependencies : Entries String PathDependency
  importGraph : ImportGraph
  importCycles : List (List String)
  /-- The contracts, but for what analyses have left in them. -/
  contractsUsing : List String → List Contract
  functionsUsing : List String → List Function

section Asked
variable [SearchEngine]

def answers (p : Program) : Answers where
  definitions target kind := p.definitions target kind
  usages settings target kind direction filters := p.usages settings target kind direction filters
  callChains target maxDepth := p.callChains target maxDepth
  references settings query := p.references settings query
  flowGraphs := p.contracts.map fun c => c.functions.map Function.flowGraph
  tracked log := p.contracts.map fun c => c.functions.map fun f =>
    ((log.track f).referencesIn f, log.track f)
  importsMatching pattern := p.importsMatching pattern
  dependencies contract := p.dependencies contract
  importUsages pattern := p.importUsages pattern
  pathDependencies := p.pathDependencies
  importGraph := p.importGraph
  importCycles := p.importGraph.cycles
  contractsUsing patterns := (p.contractsUsing patterns).map Contract.unanalysed
  functionsUsing patterns := (p.functionsUsing patterns).map Function.unanalysed

theorem answers_unanalysed (p : Program) : p.unanalysed.answers = p.answers := by
  have hcontracts : p.unanalysed.contracts = p.contracts.map Contract.unanalysed := rfl
  have hfunctions : ∀ c : Contract, c.unanalysed.functions = c.functions.map Function.unanalysed :=
    fun _ => rfl
  have hreferences : ∀ (log : VariableLog) (f : Function),
    log.referencesIn f.unanalysed = log.referencesIn f := fun _ _ => rfl
  simp only [answers, definitions, definitionsWithin_unanalysed, usages_unanalysed,
    callChains_unanalysed, references_unanalysed, hcontracts, hfunctions, hreferences, List.map_map,
    Function.comp_def, Function.flowGraph_unanalysed, VariableLog.track_unanalysed,
    dependencies_unanalysed, importUsages_unanalysed, contractsUsing_unanalysed,
    functionsUsing_unanalysed, Contract.unanalysed_unanalysed, Function.unanalysed_unanalysed]
  rfl

/-- An analysis of the whole program, under any settings, changes no answer. -/
theorem answers_analyze (p : Program) (settings : Settings) :
    (p.analyze settings).answers = p.answers := by
  rw [← answers_unanalysed, unanalysed_analyze, answers_unanalysed]

end Asked

end Program

end ContractAtlas
