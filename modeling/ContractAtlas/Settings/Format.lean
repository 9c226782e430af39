import ContractAtlas.Settings.Basic
import ContractAtlas.Settings.Token
import ContractAtlas.Text.Search

/-! The text form of settings: a JSON object, written with two-space indentation and read
strictly. -/
namespace ContractAtlas.Settings

/-! ### Writing -/

def nameLine (name : String) : Text := "    ".toList ++ Token.quote name.toList

/-- A value as it stands after its key: a number, or a list with one name per line. -/
def Value.render : Value → Text
  | .number n => Nat.toDigits 10 n.toNat
  | .names s =>
    if s.isEmpty then ['[', ']']
    else "[\n".toList ++ Text.join ",\n".toList (s.names.map nameLine) ++ "\n  ]".toList

def fieldLine (s : Settings) (f : Field) : Text :=
  "  ".toList ++ Token.quote f.key.toList ++ ": ".toList ++ (s.get f).render

/-- The settings as an object with all fields in order. -/
def render (s : Settings) : Text :=
  "\x7b\n".toList ++ Text.join ",\n".toList (Field.all.map (fieldLine s)) ++ "\n\x7d".toList

/-! ### Reading -/

/-- An object names its fields; a list gives them in order. -/
inductive Layout
  | byKey (seen : List Field)
  | inOrder (pending : List Field)

/-- What is expected next. -/
inductive Place
  | start
  | entry (mayClose : Bool)
  | colon (f : Field)
  | value (f : Field)
  | name (f : Field) (names : List String) (mayClose : Bool)
  | nameEnd (f : Field) (names : List String)
  | entryEnd
  | finished

structure Reading where
  place : Place := .start
  layout : Layout := .byKey []
  settings : Settings := {}

namespace Reading

/-- Takes a value for a field and goes on behind it. -/
def assign (r : Reading) (f : Field) (v : Value) : Option Reading :=
  (r.settings.set? f v).map fun s => { r with place := .entryEnd, settings := s }

/-- The first token of a value. -/
def stepValue (r : Reading) (f : Field) : Token → Option Reading
  | .number n => if n < UInt64.size then r.assign f (.number (UInt64.ofNat n)) else none
  | .openBracket => some { r with place := .name f [] true }
  | _ => none

/-- An entry of the document, or its end where `mayClose` allows it. A key may occur only once. -/
def stepEntry (r : Reading) (mayClose : Bool) (token : Token) : Option Reading :=
  match r.layout, token with
  | .byKey _, .closeBrace => if mayClose then some { r with place := .finished } else none
  | .byKey seen, .text key => do
    let f ← Field.ofKey? (String.ofList key)
    if seen.contains f then none
    else return { r with place := .colon f, layout := .byKey (f :: seen) }
  | .inOrder _, .closeBracket => if mayClose then some { r with place := .finished } else none
  | .inOrder (f :: pending), token => { r with layout := .inOrder pending }.stepValue f token
  | _, _ => none

def step (r : Reading) (token : Token) : Option Reading :=
  match r.place with
  | .start =>
    match token with
    | .openBrace => some { r with place := .entry true, layout := .byKey [] }
    | .openBracket => some { r with place := .entry true, layout := .inOrder Field.all }
    | _ => none
  | .entry mayClose => r.stepEntry mayClose token
  | .colon f => if token = .colon then some { r with place := .value f } else none
  | .value f => r.stepValue f token
  | .name f names mayClose =>
    match token with
    | .text s => some { r with place := .nameEnd f (String.ofList s :: names) }
    | .closeBracket => if mayClose then r.assign f (.names (.ofList names)) else none
    | _ => none
  | .nameEnd f names =>
    match token with
    | .comma => some { r with place := .name f names false }
    | .closeBracket => r.assign f (.names (.ofList names))
    | _ => none
  | .entryEnd =>
    match r.layout, token with
    | _, .comma => some { r with place := .entry false }
    | .byKey _, .closeBrace => some { r with place := .finished }
    | .inOrder _, .closeBracket => some { r with place := .finished }
    | _, _ => none
  | .finished => none

end Reading

/-- Reads a document; fields that it leaves out keep their default. -/
def read? (t : Text) : Option Settings := do
  let tokens ← Token.scan? t
  let r ← tokens.foldlM Reading.step {}
  match r.place with
  | .finished => some r.settings
  | _ => none

end ContractAtlas.Settings
