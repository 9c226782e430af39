/-! Words of the language that declarations carry, with the texts they are read from and shown
as. -/
namespace ContractAtlas

/-- Who may call a function or read a variable. -/
inductive Visibility
  | publicly
  | externally
  | internally
  | privately
deriving DecidableEq, Inhabited

namespace Visibility

def name : Visibility → String
  | publicly => "public"
  | externally => "external"
  | internally => "internal"
  | privately => "private"

def ofName? : String → Option Visibility
  | "public" => some publicly
  | "external" => some externally
  | "internal" => some internally
  | "private" => some privately
  | _ => none

@[simp] theorem ofName?_name (v : Visibility) : ofName? v.name = some v := by cases v <;> rfl

end Visibility

/-- What a function may do to the state and with ether. -/
inductive Mutability
  | pure
  | view
  | nonpayable
  | payable
deriving DecidableEq, Inhabited

namespace Mutability

def name : Mutability → String
  | pure => "pure"
  | view => "view"
  | nonpayable => "nonpayable"
  | payable => "payable"

/-- The tag used in records, in which words are divided by underscores. -/
def tag : Mutability → String
  | nonpayable => "non_payable"
  | m => m.name

def ofName? : String → Option Mutability
  | "pure" => some pure
  | "view" => some view
  | "payable" => some payable
  | "nonpayable" => some nonpayable
  | _ => none

@[simp] theorem ofName?_name (m : Mutability) : ofName? m.name = some m := by cases m <;> rfl

end Mutability

/-- Where a reference value lives. -/
inductive DataLocation
  | storage
  | memory
  | calldata
deriving DecidableEq

namespace DataLocation

def name : DataLocation → String
  | storage => "storage"
  | memory => "memory"
  | calldata => "calldata"

def ofName? : String → Option DataLocation
  | "storage" => some storage
  | "memory" => some memory
  | "calldata" => some calldata
  | _ => none

@[simp] theorem ofName?_name (l : DataLocation) : ofName? l.name = some l := by cases l <;> rfl

end DataLocation

inductive ContractKind
  | contract
  | interface
  | library
  | abstract
deriving DecidableEq, Inhabited

def ContractKind.name : ContractKind → String
  | contract => "contract"
  | interface => "interface"
  | library => "library"
  | abstract => "abstract"

inductive FunctionKind
  | function
  | constructor
  | fallback
  | receive
deriving DecidableEq, Inhabited

def FunctionKind.name : FunctionKind → String
  | function => "function"
  | constructor => "constructor"
  | fallback => "fallback"
  | receive => "receive"

end ContractAtlas
