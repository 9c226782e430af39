/-! Syntax trees as a parser of the language delivers them. -/
namespace ContractAtlas

/-- A syntax tree. The kind is the grammar's name for the form, the range counts bytes of the
source, and fields name children by their index. -/
structure ParseTree where
  kind : String
  start : Nat
  stop : Nat
  isNamed : Bool := false
  /-- Comments are extra. -/
  isExtra : Bool := false
  isError : Bool := false
  isMissing : Bool := false
  children : List ParseTree := []
  fields : List (String × Nat) := []

namespace ParseTree

instance : Inhabited ParseTree := ⟨{ kind := "", start := 0, stop := 0 }⟩

/-- A place where the source does not follow the grammar. -/
def isFault (t : ParseTree) : Bool := t.isError || t.isMissing

mutual

/-- The tree is a fault or holds one. -/
def hasFault : ParseTree → Bool
  | ⟨_, _, _, _, _, isError, isMissing, children, _⟩ => isError || isMissing || anyFault children

def anyFault : List ParseTree → Bool
  | [] => false
  | t :: ts => t.hasFault || anyFault ts

end

mutual

/-- The first fault, each node before its children. Trees without a fault are not searched. -/
def firstFault? : ParseTree → Option ParseTree
  | ⟨kind, start, stop, isNamed, isExtra, isError, isMissing, children, fields⟩ =>
    if isError || isMissing then
      some ⟨kind, start, stop, isNamed, isExtra, isError, isMissing, children, fields⟩
    else if anyFault children then firstFaultIn? children
    else none

def firstFaultIn? : List ParseTree → Option ParseTree
  | [] => none
  | t :: ts =>
    match firstFault? t with
    | some fault => some fault
    | none => firstFaultIn? ts

end

end ParseTree

end ContractAtlas
