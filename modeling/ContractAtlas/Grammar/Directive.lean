import ContractAtlas.Program.Declaration
import ContractAtlas.Program.Import
import ContractAtlas.Text.Blank
import ContractAtlas.Text.Search

/-! Reading import and using statements from their text. -/
namespace ContractAtlas

/-- `using` clauses: a library and, after `for`, what it is attached to. -/
def UsingClause.ofText? (t : Text) : Option UsingClause := do
  let rest ← Text.after? "using".toList t.trim
  let rest := (rest.dropEndWhile (· == ';')).trim
  let (library, target) := match Text.cut? " for ".toList rest with
    | some (library, target) => (library.trim, target.trim)
    | none => (rest, ['*'])
  if library.isEmpty then none
  else return ⟨String.ofList library, String.ofList target⟩

/-- The one way in which reading an import statement breaks down: a closing brace before the opening
one, with none after it. -/
inductive ImportFault
  | reversedBraces
deriving DecidableEq

namespace Import

/-- One entry between the braces, perhaps with an alias; blank entries are passed over. -/
def symbol? (entry : Text) : Option ImportedSymbol :=
  let t := entry.trim
  if t.isEmpty then none
  else
    match Text.cut? " as ".toList t with
    | some (name, asName) => some ⟨String.ofList name.trim, some (String.ofList asName.trim)⟩
    | none => some ⟨String.ofList t, none⟩

/-- Single and double quotes. -/
def isQuote (c : Char) : Bool := c == '"' || c == '\''

/-- A text in quotes: what precedes it, the text, and what follows. The first quote, single or
double, opens it and the next one of the same sort closes it. -/
def quoted? (t : Text) : Option (Text × Text × Text) :=
  let before := t.takeWhile fun c => !isQuote c
  match t.drop before.length with
  | [] => none
  | quote :: rest =>
    match Text.cut? [quote] rest with
    | some (path, after) => some (before, path, after)
    | none => none

/-- What is read of an import behind its first word: trailing semicolons and the white space around
are left out. -/
def tidy (t : Text) : Text := (t.dropEndWhile (· == ';')).trim

/-- What stands between the first opening and the last closing brace. -/
inductive Braces
  | absent
  | unclosed
  | reversed
  | around (inside : Text)

def Braces.ofText (t : Text) : Braces :=
  match Text.cut? ['{'] t with
  | none => .absent
  | some (head, tail) =>
    match Text.cutLast? '}' tail with
    | some (inside, _) => .around inside
    | none => if Text.contains head ['}'] then .reversed else .unclosed

/-- An import of a whole file, perhaps under another name. -/
def wholeFile (before path after : Text) : Option Import :=
  match before with
  | '*' :: star => do
    let asName ← Text.after? "as".toList (Text.trim star)
    let asName := asName.trim
    let asName := ((Text.before? "from".toList asName).getD asName).trim
    return { path := String.ofList path, unitAlias := some (String.ofList asName) }
  | _ =>
    let asName := (Text.after? "as".toList after).map fun a => String.ofList a.trim
    some { path := String.ofList path, unitAlias := asName }

/-- An import of the symbols that are listed between braces. -/
def picked (inside path : Text) : Import :=
  { path := String.ofList path, symbols := (Text.splitAt ',' inside).filterMap symbol? }

/-- The import with the given text before its path and after it, both trimmed. -/
def ofParts (before path after : Text) : Except ImportFault (Option Import) :=
  match Braces.ofText before with
  | .reversed => .error .reversedBraces
  | .unclosed => .ok none
  | .around inside => .ok (some (picked inside path))
  | .absent => .ok (wholeFile before path after)

/-- Reads an import statement. Anything unreadable is no import. -/
def ofText (t : Text) : Except ImportFault (Option Import) :=
  match (Text.after? "import".toList t.trim).bind fun rest => quoted? (tidy rest) with
  | none => .ok none
  | some (before, path, after) => ofParts before.trim path after.trim

end Import

end ContractAtlas
