import ContractAtlas.Pattern.Glob
import ContractAtlas.Pattern.Shapes
import ContractAtlas.Program.Basic

/-! Imports by wildcard pattern, and what they bring in. -/
namespace ContractAtlas

variable [SearchEngine]

namespace Import

/-- The path, or a name that the import makes available, matches the pattern. -/
def matchesGlob (i : Import) (g : Glob) : Bool :=
  g.accepts false i.path.toList || i.names.any fun name => g.accepts false name.toList

def matchesAny (i : Import) (patterns : List String) : Bool :=
  patterns.any fun pattern => i.matchesGlob (Glob.ofText pattern.toList)

/-- Parts of paths by which well-known packages are told. -/
def libraryMarkers : List String :=
  ["safemath", "openzeppelin", "solmate", "forge-std", "lib/", "@chainlink"]

/-- The lower case of a character, where that can be an ASCII letter. -/
def lowerCase (c : Char) : Text :=
  if c = '\u212a' then ['k'] else if c = '\u0130' then ['i', '\u0307'] else [c.toLower]

/-- The path names a well-known package, in any case. -/
def isLibrary (i : Import) : Bool :=
  libraryMarkers.any fun marker => Text.contains (i.path.toList.flatMap lowerCase) marker.toList

/-- The path or an imported symbol looks like an interface. -/
def isInterface (i : Import) : Bool :=
  Shapes.interfaceImport.occursIn i.path.toList ||
    i.symbols.any fun s => Shapes.interfaceImport.occursIn s.name.toList

end Import

/-- A symbol as a whole word. -/
def wholeWord (symbol : String) : Pattern :=
  Pattern.wordEdge ++ Pattern.literal symbol ++ Pattern.wordEdge

/-- The source holds the symbol as a whole word, if the search for it can be built. -/
def mentions (source : Text) (symbol : String) : Bool :=
  SearchEngine.builds (.word symbol) && (wholeWord symbol).occursIn source

namespace Program

def importsMatching (p : Program) (pattern : String) : List Import :=
  p.imports.filter (·.matchesAny [pattern])

/-- Names brought in by imports that match one of the patterns. -/
def importedNames (p : Program) (patterns : List String) : NameSet :=
  .ofList ((p.imports.filter (·.matchesAny patterns)).flatMap Import.names)

/-- Contracts in files with an import that matches one of the patterns. -/
def contractsUsing (p : Program) (patterns : List String) : List Contract :=
  let files := (p.imports.filter (·.matchesAny patterns)).map (·.span.file)
  p.contracts.filter fun c => files.contains c.file

/-- Functions with a body whose source names something brought in by a matching import. -/
def functionsUsing (p : Program) (patterns : List String) : List Function :=
  let symbols := (p.importedNames patterns).names
  p.functions.filter fun f => f.body.isSome && symbols.any (mentions f.source)

end Program

end ContractAtlas
