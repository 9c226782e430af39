import ContractAtlas.Import.Graph
import ContractAtlas.Proofs.Entries
import ContractAtlas.Proofs.Program.Coherence

/-! The import graph has an entry for every loaded file name. It holds what the imports of a file
lead to, but of files with one name only those of the last one. -/
namespace ContractAtlas

namespace Program
variable {p : Program} {name : String} {f : SourceFile}

/-- What an import leads to when a file of this name states it. -/
def targetOf (p : Program) (importer : String) (i : Import) : String :=
  Import.resolve (p.files.map SourceFile.path) importer i.path

/-- The last of the loaded files of this name. -/
def LastNamed (p : Program) (name : String) (f : SourceFile) : Prop :=
  ∃ before after, p.files = before ++ f :: after ∧ f.path = name ∧
    ∀ later ∈ after, later.path ≠ name

theorem exists_lastNamed (h : f ∈ p.files) : ∃ last, p.LastNamed f.path last := by
  have hsome : (p.files.reverse.find? (·.path == f.path)).isSome = true :=
    List.find?_isSome.2 ⟨f, List.mem_reverse.2 h, beq_self_eq_true f.path⟩
  obtain ⟨last, hlast⟩ := Option.isSome_iff_exists.1 hsome
  obtain ⟨hname, after, before, hsplit, hafter⟩ := List.find?_eq_some_iff_append.1 hlast
  refine ⟨last, before.reverse, after.reverse, ?_, eq_of_beq hname, fun later hlater => ?_⟩
  · rw [← List.reverse_reverse p.files, hsplit]
    simp
  · simpa using hafter later (List.mem_reverse.1 hlater)

theorem importGraph_eq (p : Program) :
    p.importGraph =
      Entries.ofList (p.files.map fun f => (f.path, (p.importsIn f.id).map (p.targetOf f.path))) :=
  rfl

theorem mem_keys_importGraph : name ∈ p.importGraph.map Prod.fst ↔
    name ∈ p.files.map SourceFile.path := by
  rw [importGraph_eq, Entries.mem_keys_ofList, List.map_map]
  rfl

theorem importsOf_of_lastNamed (h : p.LastNamed name f) :
    p.importGraph.importsOf name = (p.importsIn f.id).map (p.targetOf name) := by
  obtain ⟨before, after, hfiles, rfl, hafter⟩ := h
  have hnone : ((after.map fun f =>
      (f.path, (p.importsIn f.id).map (p.targetOf f.path))).reverse).lookup f.path = none := by
    refine List.lookup_eq_none_iff.2 fun entry hentry => ?_
    obtain ⟨later, hlater, rfl⟩ := List.mem_map.1 (List.mem_reverse.1 hentry)
    exact bne_iff_ne.2 (hafter later hlater).symm
  rw [ImportGraph.importsOf, importGraph_eq, Entries.lookup_ofList, hfiles, List.map_append,
    List.map_cons, List.reverse_append, List.reverse_cons, List.append_assoc,
    List.lookup_append, hnone]
  simp

/-- Whatever files are loaded, accepted or not: the import graph has one entry for each file name.
Each statement belongs to a loaded file, and the entry for the name of that file lists what the
statements of the last file of that name lead to. So what a statement leads to is in that entry
exactly when a statement of that last file leads to the same. -/
theorem importGraph_exact (loads : List (Option Settings × SourceUnit)) :
    let p := enterAll {} loads
    (p.importGraph.map Prod.fst).Nodup ∧
    (∀ name, name ∈ p.importGraph.map Prod.fst ↔ name ∈ p.files.map SourceFile.path) ∧
    ∀ i ∈ p.imports, ∃ f last, p.file? i.span.file = some f ∧ p.LastNamed f.path last ∧
      p.importGraph.importsOf f.path = (p.importsIn last.id).map (p.targetOf f.path) ∧
      (p.targetOf f.path i ∈ p.importGraph.importsOf f.path ↔
        ∃ j ∈ p.imports, j.span.file = last.id ∧ p.targetOf f.path j = p.targetOf f.path i) := by
  intro p
  have hp : p.Coherent := Coherent.empty.enterAll loads
  refine ⟨Entries.nodup_keys_ofList _, fun _ => mem_keys_importGraph, fun i hi => ?_⟩
  have hlt := hp.importFile i hi
  obtain ⟨last, hlast⟩ := exists_lastNamed (List.getElem_mem hlt)
  have himports := importsOf_of_lastNamed hlast
  refine ⟨_, last, List.getElem?_eq_getElem hlt, hlast, himports, ?_⟩
  rw [himports, List.mem_map]
  simp only [importsIn, List.mem_filter, beq_iff_eq, and_assoc]

end Program

namespace Sample

/-- A file that imports another one, loaded without a name of its own. -/
def importing : SourceUnit where
  text := "import \"./X.sol\";".toList
  tree := form "source_file" 0 17 [form "import_directive" 0 17
    [token "import" 0 6, form "string" 7 16 [token "\"" 7 8, token "\"" 15 16], token ";" 16 17]]

/-- That file, and then one without imports that has no name of its own either. -/
def namesakes : List (Option Settings × SourceUnit) :=
  [(some {}, importing), (some {}, { base with path := "<unknown>" })]

end Sample

namespace Program

/-- The second file takes the entry of the first one, and what the first one imports is lost. -/
theorem import_lost_to_namesake :
    ∃ i ∈ (enterAll {} Sample.namesakes).imports,
      ∃ f ∈ (enterAll {} Sample.namesakes).file? i.span.file,
        (enterAll {} Sample.namesakes).targetOf f.path i = "X.sol" ∧
        (enterAll {} Sample.namesakes).importGraph = [(f.path, [])] := by
  decide +kernel

end Program

end ContractAtlas
