import ContractAtlas.Text.Blank
import ContractAtlas.Text.Search

/-! What a call invokes, read off the text in front of its arguments. -/
namespace ContractAtlas

/-- The part of a call before its arguments. -/
inductive Callee
  | identifier (name : String)
  | member (target name : String)
  | creation (type : String)
  | other (text : String)
deriving DecidableEq, Inhabited

namespace Callee

/-- Reads a callee from trimmed text: an identifier, a creation, or a member behind the last dot.
A member needs an identifier after that dot and something before it. -/
def ofText (source : Text) : Callee :=
  let t := source.trim
  if t.isIdentifier then identifier (String.ofList t)
  else
    match Text.after? "new ".toList t with
    | some type => creation (String.ofList type.trim)
    | none =>
      match Text.cutLast? '.' t with
      | some (target, name) =>
        if name.trim.isIdentifier && !target.trim.isEmpty then
          member (String.ofList target.trim) (String.ofList name.trim)
        else other (String.ofList t)
      | none => other (String.ofList t)

/-- The name of what is invoked, if it has one. -/
def name? : Callee → Option String
  | identifier name => some name
  | member _ name => some name
  | creation _ => none
  | other _ => none

/-- The receiver of a member call. -/
def target? : Callee → Option String
  | member target _ => some target
  | _ => none

end Callee

end ContractAtlas
