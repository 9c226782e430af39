import ContractAtlas.Entries
import ContractAtlas.Program.Declaration
import ContractAtlas.Program.Import
import ContractAtlas.Reach
import ContractAtlas.Source.File

/-! Programs: every loaded file, contract and import, in load order. -/
namespace ContractAtlas

structure Program where
  files : List SourceFile := []
  contracts : List Contract := []
  /-- The numbers of the contracts of each name, in load order. -/
  byName : Entries String (List Nat) := []
  imports : List Import := []
deriving Inhabited

/-- Why a program refuses a request. -/
inductive ProgramError
  | source (cause : SourceError)
  | contractNotFound (id : Nat)
deriving DecidableEq

namespace ProgramError

def message : ProgramError → String
  | source cause => "Source error: " ++ cause.message
  | contractNotFound id => s!"Contract not found: #{id}"

end ProgramError

namespace Program

/-- Registers a file under the next number. -/
def addFile (p : Program) (path : String) (text : Text) : Except ProgramError (Nat × Program) :=
  match SourceFile.refusal? text with
  | some cause => .error (.source cause)
  | none =>
    let id := p.files.length
    .ok (id, { p with files := p.files ++ [⟨id, path, text⟩] })

def file? (p : Program) (id : Nat) : Option SourceFile := p.files[id]?

def addImport (p : Program) (i : Import) : Program := { p with imports := p.imports ++ [i] }

/-- Imports written in a file. -/
def importsIn (p : Program) (file : Nat) : List Import := p.imports.filter (·.span.file == file)

/-- Appends a contract under the next number and enters the number under its name. -/
def addContract (p : Program) (c : Contract) : Nat × Program :=
  let id := p.contracts.length
  (id, { p with
    contracts := p.contracts ++ [c.numbered id]
    byName := p.byName.update c.name [] (· ++ [id]) })

def contract? (p : Program) (id : Nat) : Option Contract := p.contracts[id]?

def getContract (p : Program) (id : Nat) : Except ProgramError Contract :=
  match p.contract? id with
  | some c => .ok c
  | none => .error (.contractNotFound id)

/-- The contracts of this name, in load order. -/
def contractsNamed (p : Program) (name : String) : List Contract :=
  ((p.byName.lookup name).getD []).filterMap p.contract?

/-- The first loaded contract of this name. -/
def contractNamed? (p : Program) (name : String) : Option Contract :=
  ((p.byName.lookup name).bind List.head?).bind p.contract?

/-- Where the contracts are changed one by one and the index stays, names lead to the changed
ones. -/
theorem contractNamed?_map {p q : Program} {f : Contract → Contract} (hnames : q.byName = p.byName)
    (hcontracts : q.contracts = p.contracts.map f) (name : String) :
    q.contractNamed? name = (p.contractNamed? name).map f := by
  rw [contractNamed?, contractNamed?, hnames]
  cases (p.byName.lookup name).bind List.head? with
  | none => rfl
  | some id =>
    rw [Option.bind_some, Option.bind_some, contract?, contract?, hcontracts, List.getElem?_map]

/-- All functions, contract by contract. -/
def functions (p : Program) : List Function := p.contracts.flatMap Contract.functions

/-! Inheritance between loaded contracts. A base name stands for the first loaded contract of that
name; names that no contract bears are passed over. -/

/-- Numbers of the loaded direct bases, in the order written. -/
def baseIds (p : Program) (id : Nat) : List Nat :=
  match p.contract? id with
  | some c => c.bases.filterMap fun name => (p.contractNamed? name).map Contract.id
  | none => []

/-- All contracts that `id` inherits from, nearest first and without `id` itself. Each contract has
one turn in the queue. -/
def ancestors (p : Program) (id : Nat) : List Nat :=
  ((Reach.Queue.start id).run p.baseIds (p.contracts.length + 1)).found

def inheritsFrom (p : Program) (id ancestor : Nat) : Bool := (p.ancestors id).contains ancestor

end Program

end ContractAtlas
