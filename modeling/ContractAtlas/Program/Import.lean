import ContractAtlas.Source.Span
import ContractAtlas.Text.Blank
import ContractAtlas.Text.Search

/-! Import statements. -/
namespace ContractAtlas

/-- A name picked from an imported file, perhaps under another name. -/
structure ImportedSymbol where
  name : String
  asName : Option String := none
deriving DecidableEq

namespace ImportedSymbol

/-- The name under which the importing file sees the symbol. -/
def localName (s : ImportedSymbol) : String := s.asName.getD s.name

end ImportedSymbol

/-- An import statement: a path, the symbols picked from it, or an alias for the whole file. -/
structure Import where
  path : String
  symbols : List ImportedSymbol := []
  unitAlias : Option String := none
  span : Span := {}
  excerpt : Excerpt := {}
deriving DecidableEq

namespace Import

/-- The last segment of the path without the extension. -/
def stem (i : Import) : String :=
  let file := (Text.splitAt '/' i.path.toList).getLastD []
  String.ofList ((Text.before? ".sol".toList file).getD file)

/-- Names the import makes available: its symbols, else its alias, else the stem of its path. -/
def names (i : Import) : List String :=
  if i.symbols.isEmpty then [i.unitAlias.getD i.stem] else i.symbols.map ImportedSymbol.localName

/-- A path is relative when it starts with one or two dots and a slash. -/
def isRelative (path : Text) : Bool :=
  "./".toList.isPrefixOf path || "../".toList.isPrefixOf path

/-- The path leaves the project through a package or a remapping. -/
def isExternal (i : Import) : Bool := !isRelative i.path.toList

end Import

end ContractAtlas
