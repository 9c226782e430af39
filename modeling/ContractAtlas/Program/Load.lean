import ContractAtlas.Call.Analysis
import ContractAtlas.Grammar.Declaration

/-! Loading files into a program. -/
namespace ContractAtlas

/-- Why a file is not loaded. -/
inductive LoadError
  /-- The source does not follow the grammar; `missing` names what the parser expected there. -/
  | syntaxFault (line column : Nat) (missing : Option String)
  | refused (path : String) (cause : ProgramError)
  | importFault (fault : ImportFault)
deriving DecidableEq

namespace LoadError

def message : LoadError → String
  | syntaxFault line column missing =>
    let what := match missing with
      | some kind => "missing " ++ kind
      | none => "syntax error"
    s!"Parse error at line {line}, column {column}: {what}"
  | refused path _ => "Failed to register source file " ++ path
  | importFault .reversedBraces => "import statement with reversed braces"

end LoadError

/-- A file to load, with the syntax tree of its text. -/
structure SourceUnit where
  path : String := "<unknown>"
  text : Text
  tree : ParseTree

namespace SourceUnit

/-- The first place where the source does not follow the grammar. -/
def fault? (u : SourceUnit) : Option LoadError :=
  u.tree.firstFault?.map fun fault =>
    let (row, column) := u.text.rowColumn fault.start
    .syntaxFault (row + 1) (column + 1) (if fault.isMissing then some fault.kind else none)

end SourceUnit

namespace Program

/-- Appends contracts and gives back their numbers. -/
def addContracts (p : Program) (cs : List Contract) : List Nat × Program :=
  (List.range' p.contracts.length cs.length,
    cs.foldl (fun p c => (p.addContract c).2) p)

/-- Loads a file without analysing anything. -/
def register (p : Program) (u : SourceUnit) : Except LoadError (List Nat × Program) := do
  match u.fault? with
  | some fault => throw fault
  | none => pure ()
  let (file, p) ← (p.addFile u.path u.text).mapError (LoadError.refused u.path)
  let source : TreeSource := ⟨file, u.path, u.text⟩
  let lowered := Lowered.ofTree source u.tree
  let imports ← (lowered.imports source).mapError LoadError.importFault
  return { p with imports := p.imports ++ imports }.addContracts (lowered.contracts source)

/-- Loads a file and analyses the whole program anew, so that earlier files see the new names. The
numbers of the new contracts come back. -/
def load (p : Program) (settings : Settings) (u : SourceUnit) :
    Except LoadError (List Nat × Program) := do
  let (ids, p) ← p.register u
  return (ids, p.analyze settings)

/-- A new program from files in order; the first file that fails ends the load. -/
def ofUnits (units : List SourceUnit) : Except LoadError Program :=
  units.foldlM (fun p u => do return (← p.load {} u).2) {}

end Program

end ContractAtlas
