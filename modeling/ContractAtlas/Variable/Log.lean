import ContractAtlas.Entries
import ContractAtlas.Pattern.Glob
import ContractAtlas.Variable.Reference

/-! A log of variable references over functions, indexed by variable and by function. -/
namespace ContractAtlas

/-- A function is known by its contract and its signature. -/
abbrev FunctionKey := Nat × String

structure VariableLog where
  byVariable : Entries String (List VariableReference) := []
  byFunction : Entries FunctionKey (List VariableReference) := []
  declared : NameSet := ∅
deriving Inhabited

structure VariableStatistics where
  variableCount : Nat
  references : Nat
  functions : Nat
  reads : Nat
  writes : Nat
  declared : Nat
deriving DecidableEq

namespace Function

def key (f : Function) : FunctionKey := (f.contract, f.signature)

end Function

namespace VariableLog

/-- Files a reference under its variable. -/
def file (entries : Entries String (List VariableReference)) (r : VariableReference) :
    Entries String (List VariableReference) :=
  entries.update r.name [] (· ++ [r])

/-- Logs a function, unless one with the same key is logged already. -/
def track (log : VariableLog) (f : Function) : VariableLog :=
  match log.byFunction.lookup f.key with
  | some _ => log
  | none =>
    let references := f.sightings.map Sighting.reference
    let declared := (f.sightings.filter Sighting.declares).map fun s => s.reference.name
    { byVariable := references.foldl file log.byVariable
      byFunction := log.byFunction ++ [(f.key, references)]
      declared := declared.foldl NameSet.insert log.declared }

/-- The logged references of a function. -/
def referencesIn (log : VariableLog) (f : Function) : List VariableReference :=
  (log.byFunction.lookup f.key).getD []

/-- The logged references to a variable. -/
def referencesTo (log : VariableLog) (name : String) : List VariableReference :=
  (log.byVariable.lookup name).getD []

def readsOf (log : VariableLog) (name : String) : List VariableReference :=
  (log.referencesTo name).filter VariableReference.isRead

def writesOf (log : VariableLog) (name : String) : List VariableReference :=
  (log.referencesTo name).filter VariableReference.isWrite

/-- Names of the variables of a logged function. -/
def variablesIn (log : VariableLog) (f : Function) : NameSet :=
  .ofList ((log.referencesIn f).map VariableReference.name)

/-- Logged variables whose name matches a wildcard pattern up to case, in order of first
reference. -/
def matching [SearchEngine] (log : VariableLog) (pattern : Text) : List String :=
  (log.byVariable.map Prod.fst).filter fun name =>
    (Glob.ofText pattern).accepts true name.toList

def statistics (log : VariableLog) : VariableStatistics :=
  let all := log.byVariable.flatMap Prod.snd
  { variableCount := log.byVariable.length
    references := all.length
    functions := log.byFunction.length
    reads := (all.filter VariableReference.isRead).length
    writes := (all.filter VariableReference.isWrite).length
    declared := log.declared.names.length }

end VariableLog

end ContractAtlas
