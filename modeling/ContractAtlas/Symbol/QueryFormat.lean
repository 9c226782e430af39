import ContractAtlas.Symbol.Reference

/-! Reference queries as structured data: a record, or a list of the fields in order. -/
namespace ContractAtlas

/-- Data as it stands in a request. -/
inductive Datum
  | null
  | flag (b : Bool)
  | number (n : Nat)
  | text (s : String)
  | list (items : List Datum)
  | record (fields : List (String × Datum))
deriving Inhabited

namespace Datum

def asText? : Datum → Option String
  | text s => some s
  | _ => none

def asFlag? : Datum → Option Bool
  | flag b => some b
  | _ => none

/-- A choice: its name, or a record with nothing under that name alone. -/
def asChoice? : Datum → Option String
  | text s => some s
  | record [(s, null)] => some s
  | _ => none

/-- A 64-bit number. -/
def asWord? : Datum → Option UInt64
  | number n => if n < UInt64.size then some (UInt64.ofNat n) else none
  | _ => none

def asTexts? : Datum → Option (List String)
  | list items => items.mapM asText?
  | _ => none

/-- The values of the named fields. A record gives them by name and may hold others; a list gives
them in order and may stop early, but not go on. -/
def fieldsNamed? (names : List String) : Datum → Option (List (Option Datum))
  | record fields => some (names.map fun name => fields.lookup name)
  | list items =>
    if items.length ≤ names.length then
      some (names.mapIdx fun i _ => items[i]?)
    else none
  | _ => none

end Datum

/-- A field that may be left out, but holds a proper value if it is given. -/
def orDefault (field : Option Datum) (read : Datum → Option α) (default : α) : Option α :=
  match field with
  | some d => read d
  | none => some default

/-- Filters must give both lists. -/
def Filters.ofDatum? (d : Datum) : Option Filters := do
  match ← d.fieldsNamed? ["contracts", "files"] with
  | [some contracts, some files] => return ⟨← contracts.asTexts?, ← files.asTexts?⟩
  | _ => none

/-- Reads a query; only the target and its kind are required. -/
def ReferenceQuery.ofDatum? (d : Datum) : Option ReferenceQuery := do
  match ← d.fieldsNamed? ["target", "kind", "reference_type", "direction", "include_call_chains",
      "max_depth", "filters"] with
  | [some target, some kind, scope, direction, chains, depth, filters] =>
    let target ← target.asText?
    let kind ← kind.asChoice? >>= SymbolKind.ofName?
    let query : ReferenceQuery := { target, kind }
    return { query with
      scope := ← orDefault scope (fun d => d.asChoice? >>= ReferenceScope.ofName?) query.scope
      direction :=
        ← orDefault direction (fun d => d.asChoice? >>= Direction.ofName?) query.direction
      withCallChains := ← orDefault chains Datum.asFlag? query.withCallChains
      maxDepth := ← orDefault depth Datum.asWord? query.maxDepth
      filters := ← orDefault filters Filters.ofDatum? query.filters }
  | _ => none

end ContractAtlas
