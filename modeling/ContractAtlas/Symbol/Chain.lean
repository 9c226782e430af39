import ContractAtlas.Call.Deep
import ContractAtlas.Reach
import ContractAtlas.Symbol.Declaration

/-! Chains of calls from a function, followed by name. -/
namespace ContractAtlas

/-- Chains of names, and whether one was cut off for its length. -/
structure CallChains where
  chains : List (List String) := []
  depthReached : Bool := false
deriving DecidableEq

namespace CallChains

def append (a b : CallChains) : CallChains :=
  ⟨a.chains ++ b.chains, a.depthReached || b.depthReached⟩

/-- A finished chain; the start alone is none. -/
def ofPath (path : List String) (depthReached : Bool) : CallChains :=
  ⟨if 1 < path.length then [path] else [], depthReached⟩

/-- The chains that go on from `path`, which ends at `f`, by at most `left` calls. A chain ends
where `left` runs out or where the function calls no loaded one; it never comes back to a name, and
a chain that could only come back is dropped. -/
def extend (all : List Function) : (left : Nat) → (f : Function) → (path : List String) → CallChains
  | 0, _, path => ofPath path true
  | left + 1, f, path =>
    match Reach.fresh Function.name [] (f.callees all) with
    | [] => ofPath path false
    | callees =>
      (callees.filter fun g => !path.contains g.name).foldl
        (fun done g => done.append (extend all left g (path ++ [g.name]))) {}

end CallChains

namespace Program

/-- The call chains of at most `maxDepth` calls from the first function that the target names. -/
def callChains (p : Program) (target : String) (maxDepth : Nat) : Except LookupError CallChains :=
  match QualifiedName.ofText? target.toList with
  | none => .error (.malformed target)
  | some q =>
    match (p.declarationsOf q .function).findSome? Declaration.function with
    | none => .error (.functionNotFound target)
    | some f =>
      .ok (if maxDepth = 0 then {} else CallChains.extend p.functions maxDepth f [f.name])

end Program

end ContractAtlas
