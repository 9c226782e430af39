import ContractAtlas.Settings.Basic
import ContractAtlas.Source.Line
import ContractAtlas.Source.Span
import ContractAtlas.Symbol.Definition

/-! Where a symbol is used: the statements, conditions and initialisers whose text holds its
name. -/
namespace ContractAtlas

inductive UsageKind
  | functionCall
  | assignment
  | arrayAccess
  | memberAccess
  | variableRead
  | reference
deriving DecidableEq

def UsageKind.name : UsageKind → String
  | functionCall => "function_call"
  | assignment => "assignment"
  | arrayAccess => "array_access"
  | memberAccess => "member_access"
  | variableRead => "variable_read"
  | reference => "reference"

structure Usage where
  name : String
  kind : UsageKind
  location : SymbolLocation
  context : Text
  nodeKind : String
  snippet : Text
deriving DecidableEq

/-- The usages found, and whether the cap cut off more. -/
structure Usages where
  usages : List Usage := []
  truncated : Bool := false
deriving DecidableEq

/-- Goes through candidates, up to the first usage that the cap leaves out. -/
def Usages.collect {α : Type} (cap : Nat) (usage? : α → Option Usage) : List α → Usages → Usages
  | [], found => found
  | a :: as, found =>
    match usage? a with
    | none => collect cap usage? as found
    | some u =>
      if cap ≤ found.usages.length then { found with truncated := true }
      else collect cap usage? as { found with usages := found.usages ++ [u] }

namespace Node

mutual

/-- The nodes of a body in which usages are looked for: plain statements and the parts of compound
ones that are no statements. -/
def candidates : Node → List Node
  | ⟨kind, span, excerpt, children⟩ =>
    if kind.isCompound then candidatesIn children else [⟨kind, span, excerpt, children⟩]

def candidatesIn : List Node → List Node
  | [] => []
  | n :: ns => (if n.isStatement then candidates n else [n]) ++ candidatesIn ns

end

end Node

namespace Contract

/-- The candidates of functions and modifiers with their names, then the initialisers. -/
def candidates (c : Contract) : List (Option String × Node) :=
  let bodies := c.functions.map (fun f => (f.name, f.body)) ++
    c.modifiers.map fun m => (m.name, m.body)
  (bodies.flatMap fun (name, body) =>
    ((body.map Node.candidates).getD []).map fun n => (some name, n)) ++
  (c.stateVariables.filterMap StateVariable.initializer).map fun n => (none, n)

end Contract

/-- Operators that may stand before the equals sign of an assignment. -/
def compoundOperators : List Text :=
  ["<<", ">>", "+", "-", "*", "/", "%", "|", "&", "^"].map String.toList

/-- Some occurrence of the name is followed by an assignment operator, simple or compound. -/
def isAssignedIn (name source : Text) : Bool :=
  (Text.tailsAfter name 0 source).any fun tail =>
    let rest := tail.trimStart
    let rest := (compoundOperators.findSome? fun op => Text.after? op rest).getD rest
    match rest with
    | '=' :: '=' :: _ => false
    | '=' :: _ => true
    | _ => false

/-- What the text does with the name. A following parenthesis anywhere makes it a call. -/
def usageKind (name : Text) (kind : SymbolKind) (source : Text) : UsageKind :=
  if Text.contains source (name ++ ['(']) then .functionCall
  else if kind = .stateVariable && isAssignedIn name source then .assignment
  else if kind = .stateVariable && Text.contains source (name ++ ['[']) then .arrayAccess
  else if Text.contains source (name ++ ['.']) then .memberAccess
  else if kind = .stateVariable then .variableRead
  else .reference

/-- A text cut off after `limit` characters, with three dots in place of the rest. -/
def snippet (source : Text) (limit : Nat) : Text :=
  if limit < source.length then source.take limit ++ ['.', '.', '.'] else source

/-- The first row that holds `name`: its index and the byte offset of the name in it. -/
def firstOccurrence? (name source : Text) : Option (Nat × Nat) :=
  ((source.rows.mapIdx fun i row => (i, Text.offset? row name)).findSome? fun (i, offset) =>
    offset.map fun at_ => (i, at_))

/-- The rows around the first one that holds the name, as many as `radius` on each side. The last
row's number is computed in 64-bit words. -/
def contextInText (source name : Text) (radius : UInt64) : Text :=
  match firstOccurrence? name source with
  | some (i, _) =>
    let first := i - radius.toNat
    let last := min (UInt64.ofNat i + radius + 1).toNat source.rows.length
    (Text.join ['\n'] ((source.rows.drop first).take (last - first))).trim
  | none => snippet source 100

namespace Program

/-- The path under which a contract is filtered: that of its span, or else of its file. -/
def pathOf (p : Program) (c : Contract) : String :=
  if c.span.path.isEmpty then ((p.file? c.file).map SourceFile.path).getD "" else c.span.path

/-- The lines around a usage, from its file if the node has one. -/
def usageContext (p : Program) (radius : UInt64) (n : Node) (name : Text) (line : Nat) : Text :=
  let fromFile := if 0 < line && !n.span.path.isEmpty then
      (p.file? n.span.file).bind fun f => f.contextAround? line radius
    else none
  fromFile.getD (contextInText n.text name radius)

/-- The usage of a name in a candidate, if its text holds the name. Rows after the first start at
column one; lines and columns are 32-bit words. -/
def usageIn? (p : Program) (settings : Settings) (name : String) (kind : SymbolKind) (c : Contract)
    (scope : Option String) (n : Node) : Option Usage :=
  let source := n.text
  let name' := name.toList
  if !Text.contains source name' then none
  else
    let (row, offset) := (firstOccurrence? name' source).getD (0, 0)
    let line := (n.span.line + row) % UInt32.size
    let column := (if row = 0 then n.span.column + offset else offset + 1) % UInt32.size
    some
      { name := name
        kind := usageKind name' kind source
        location := ⟨n.span.path, line, column, some c.name, scope⟩
        context := p.usageContext settings.contextLines n name' line
        nodeKind := n.kind.name
        snippet := snippet source settings.snippetLength.toNat }

/-- The usage of the declaration `anchor` in a candidate, if the direction takes in its place. -/
def usageFrom? (p : Program) (settings : Settings) (kind : SymbolKind) (direction : Direction)
    (anchor : Declaration) (c : Contract) (candidate : Option String × Node) : Option Usage :=
  if direction.allows candidate.2.span anchor.span then
    p.usageIn? settings anchor.name kind c candidate.1 candidate.2
  else none

variable [SearchEngine]

/-- Goes through the contracts that the filters accept, until the cap cuts the search short. -/
def collectUsages (p : Program) (settings : Settings) (kind : SymbolKind) (direction : Direction)
    (filters : Filters) (anchor : Declaration) : List Contract → Usages → Usages
  | [], found => found
  | c :: cs, found =>
    if filters.accepts c (p.pathOf c) then
      let found := Usages.collect settings.maxUsages.toNat
        (p.usageFrom? settings kind direction anchor c) c.candidates found
      if found.truncated then found
      else p.collectUsages settings kind direction filters anchor cs found
    else p.collectUsages settings kind direction filters anchor cs found

/-- The usages of a target, as many as the settings allow. The first declaration is the anchor for
the direction, whatever the filters. -/
def usages (p : Program) (settings : Settings) (target : String) (kind : SymbolKind)
    (direction : Direction) (filters : Filters) : Except LookupError Usages :=
  match QualifiedName.ofText? target.toList with
  | none => .error (.malformed target)
  | some q =>
    match p.declarationsOf q kind with
    | [] => .error (.notFound target kind)
    | anchor :: _ => .ok (p.collectUsages settings kind direction filters anchor p.contracts {})

end Program

end ContractAtlas
