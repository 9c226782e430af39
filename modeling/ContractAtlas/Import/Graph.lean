import ContractAtlas.Entries
import ContractAtlas.Program.Basic

/-! Which files import which, and where imports run in circles. -/
namespace ContractAtlas

/-- Each file with the files it imports, in order. -/
abbrev ImportGraph := Entries String (List String)

namespace Import

/-- One segment of a relative path applied to the directory reached so far, innermost first. -/
def enter (directory : List Text) (segment : Text) : List Text :=
  if segment = [] || segment = ['.'] then directory
  else if segment = ['.', '.'] then directory.tail
  else segment :: directory

/-- A relative path as seen from the importing file. -/
def joinRelative (importer path : Text) : Text :=
  let directory := (Text.splitAt '/' importer).dropLast.reverse
  Text.join ['/'] ((Text.splitAt '/' path).foldl enter directory).reverse

/-- The loaded file that a path means: the first one of that name or with that name behind a slash.
The joined path itself stands for files that are not loaded. -/
def resolve (loaded : List String) (importer path : String) : String :=
  let target := if isRelative path.toList then joinRelative importer.toList path.toList
    else path.toList
  let found := loaded.find? fun name =>
    name.toList = target || ('/' :: target).isSuffixOf name.toList
  found.getD (String.ofList target)

end Import

namespace Program

/-- The imports of every loaded file. Of files with one name, the last one's imports count. -/
def importGraph (p : Program) : ImportGraph :=
  let loaded := p.files.map SourceFile.path
  Entries.ofList (p.files.map fun f =>
    (f.path, (p.importsIn f.id).map fun i => Import.resolve loaded f.path i.path))

end Program

namespace ImportGraph

def importsOf (g : ImportGraph) (file : String) : List String := (g.lookup file).getD []

/-- The smallest member of a list. -/
def smallest? (members : List String) : Option String :=
  members.foldl (fun least m =>
    match least with
    | some l => if m < l then some m else some l
    | none => some m) none

/-- A cycle turned so that its smallest member comes first. -/
def canonical (members : List String) : List String :=
  let least := smallest? members
  members.dropWhile (some · != least) ++ members.takeWhile (some · != least)

/-- What a search for cycles has met: files entered, cycles in canonical form, cycles as found. -/
structure CycleSearch where
  visited : List String := []
  seen : List (List String) := []
  cycles : List (List String) := []

namespace CycleSearch

/-- Reports a cycle unless a rotation of it was reported before. -/
def report (s : CycleSearch) (members : List String) (closing : String) : CycleSearch :=
  if s.seen.contains (canonical members) then s
  else { s with seen := canonical members :: s.seen, cycles := s.cycles ++ [members ++ [closing]] }

/-- Goes on from the end of `path` to `file`. Coming back to the path closes a cycle; any file is
entered once. No path is longer than the number of files, which bounds `depth`. -/
def explore (g : ImportGraph) : (depth : Nat) → (path : List String) → CycleSearch →
    (file : String) → CycleSearch
  | 0, _, s, _ => s
  | depth + 1, path, s, file =>
    match path.dropWhile (· != file) with
    | first :: rest => s.report (first :: rest) file
    | [] =>
      if s.visited.contains file then s
      else
        (g.importsOf file).foldl (explore g depth (path ++ [file]))
          { s with visited := file :: s.visited }

end CycleSearch

/-- Cycles of the graph, each from its first file back to that file. -/
def cycles (g : ImportGraph) : List (List String) :=
  ((g.map Prod.fst).foldl (CycleSearch.explore g (g.length + 2) []) {}).cycles

end ImportGraph

end ContractAtlas
