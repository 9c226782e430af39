import ContractAtlas.Entries
import ContractAtlas.Import.Match

/-! What imports are used for, and what a contract or a program depends on. -/
namespace ContractAtlas

/-- A use of an imported name: as a base, or in a function. -/
structure ImportUsage where
  contract : String
  /-- The function, unless the name is a base. -/
  function : Option String
  symbol : String
  span : Span
deriving DecidableEq

/-- The imports of a contract's file. -/
structure ContractDependencies where
  imports : List String := []
  symbols : List String := []
  libraries : List String := []
  interfaces : List String := []
deriving DecidableEq

/-- All that is known about one import path. -/
structure PathDependency where
  count : Nat := 0
  files : List String := []
  symbols : NameSet := ∅
  isExternal : Bool
  isLibrary : Bool
  isInterface : Bool
deriving DecidableEq

namespace Program

variable [SearchEngine]

/-- Bases and functions that use a name brought in by a matching import, contract by contract. -/
def importUsages (p : Program) (pattern : String) : List ImportUsage :=
  let symbols := p.importedNames [pattern]
  p.contracts.flatMap fun c =>
    ((c.bases.filter symbols.contains).map fun base => ⟨c.name, none, base, c.span⟩) ++
    (c.functions.filter (·.body.isSome)).flatMap fun f =>
      (symbols.names.filter (mentions f.source)).map fun symbol =>
        ⟨c.name, some f.name, symbol, f.span⟩

/-- The imports of the file that declares a contract. A package comes before an interface; an
unknown contract has no imports. -/
def dependencies (p : Program) (contract : String) : ContractDependencies :=
  match p.contractNamed? contract with
  | none => {}
  | some c =>
    let imports := p.importsIn c.file
    { imports := imports.map Import.path
      symbols := imports.flatMap Import.names
      libraries := (imports.filter (·.isLibrary)).map Import.path
      interfaces := (imports.filter fun i => !i.isLibrary && i.isInterface).map Import.path }

/-- Every import path with what is known about it; how it is classed depends on its first import. -/
def pathDependencies (p : Program) : Entries String PathDependency :=
  p.imports.foldl (fun entries i =>
    entries.update i.path
      { isExternal := i.isExternal, isLibrary := i.isLibrary, isInterface := i.isInterface }
      fun d =>
        { d with
          count := d.count + 1
          files := if d.files.contains i.span.path then d.files else d.files ++ [i.span.path]
          symbols := i.names.foldl NameSet.insert d.symbols }) []

end Program

end ContractAtlas
