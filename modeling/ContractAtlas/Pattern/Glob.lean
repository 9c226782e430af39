import ContractAtlas.Text.CaseFold

/-! Wildcard patterns over whole texts: a star takes any stretch, a question mark one character, and
neither takes a line feed. -/
namespace ContractAtlas

inductive Wildcard
  | stretch
  | single
  | exactly (c : Char)
deriving DecidableEq

/-- The same entry with another character to take. -/
def Wildcard.map (f : Char → Char) : Wildcard → Wildcard
  | stretch => stretch
  | single => single
  | exactly c => exactly (f c)

/-- A wildcard pattern, one entry per character written. -/
abbrev Glob := List Wildcard

namespace Glob

def ofText (pattern : Text) : Glob := pattern.map fun
  | '*' => .stretch
  | '?' => .single
  | c => .exactly c

/-- For each tail of the pattern, longest first, whether it takes the empty text. -/
def emptyRow : Glob → List Bool
  | [] => [true]
  | .stretch :: g =>
    let row := emptyRow g
    row.headD false :: row
  | _ :: g => false :: emptyRow g

/-- Whether each tail of the pattern takes `c :: t`, from whether it takes `t`. The pattern's
characters are compared with `shape`, the form of `c` that counts. -/
def stepRow (c shape : Char) : Glob → List Bool → List Bool
  | w :: g, here :: row =>
    let next := stepRow c shape g row
    let takes := match w with
      | .stretch => next.headD false || (c != '\n' && here)
      | .single => c != '\n' && row.headD false
      | .exactly d => d == shape && row.headD false
    takes :: next
  | _, _ => [false]

/-- Whether the pattern takes the whole text. The work is the product of the two lengths. -/
def takes (g : Glob) (ignoreCase : Bool) (t : Text) : Bool :=
  let fold := if ignoreCase then Text.caseFold else id
  let g := g.map (Wildcard.map fold)
  (t.foldr (fun c row => stepRow c (fold c) g row) (emptyRow g)).headD false

end Glob

/-- A search that has to be built before it can be made: for the texts that a wildcard pattern
takes, or for a name as a whole word. -/
inductive Search
  | glob (g : Glob) (ignoreCase : Bool)
  | word (name : String)

/-- The engine that builds searches. It refuses those that would take it too much room; which ones
these are is for the engine to say. -/
class SearchEngine where
  builds : Search → Bool

/-- The pattern takes the whole text. A search that cannot be built takes none. -/
def Glob.accepts [SearchEngine] (g : Glob) (ignoreCase : Bool) (t : Text) : Bool :=
  SearchEngine.builds (.glob g ignoreCase) && g.takes ignoreCase t

end ContractAtlas
