import ContractAtlas.Program.Load
import ContractAtlas.Proofs.Call.Outline
import ContractAtlas.Proofs.Grammar.Declaration

/-! Loading a file: what it brings in depends on the file and on the number it gets, and goes behind
what the program already holds. -/
namespace ContractAtlas

namespace SourceUnit

def source (u : SourceUnit) (file : Nat) : TreeSource := ⟨file, u.path, u.text⟩

def lowered (u : SourceUnit) (file : Nat) : Lowered := .ofTree (u.source file) u.tree

/-- The imports and contracts of a file under a file number, unless it is refused. -/
def read (u : SourceUnit) (file : Nat) : Except LoadError (List Import × List Contract) :=
  match u.fault?, SourceFile.refusal? u.text with
  | some fault, _ => .error fault
  | none, some cause => .error (.refused u.path (.source cause))
  | none, none =>
    match (u.lowered file).imports (u.source file) with
    | .error fault => .error (.importFault fault)
    | .ok imports => .ok (imports, (u.lowered file).contracts (u.source file))

/-- The file number decides neither whether a file is read nor what it holds. -/
theorem read_eq (u : SourceUnit) (file other : Nat) :
    u.read other = (u.read file).map fun r =>
      (r.1.map (Import.renumber fun _ => other),
        r.2.map (Contract.relabel NodeKind.unclassified fun _ => other)) := by
  have hlowered : u.lowered other = (u.lowered file).relabel fun _ => other :=
    Lowered.ofTree_renumber (m := fun _ => other) (s := u.source file) u.tree
  have himports : (u.lowered other).imports (u.source other) =
      ((u.lowered file).imports (u.source file)).map
        (List.map (Import.renumber fun _ => other)) := by
    rw [hlowered]
    exact Lowered.imports_relabel (m := fun _ => other) (s := u.source file) (u.lowered file)
  have hcontracts : (u.lowered other).contracts (u.source other) =
      ((u.lowered file).contracts (u.source file)).map
        (Contract.relabel NodeKind.unclassified fun _ => other) := by
    rw [hlowered]
    exact Lowered.contracts_relabel (m := fun _ => other) (s := u.source file) (u.lowered file)
  rw [read, read, himports, hcontracts]
  cases u.fault? with
  | some fault => rfl
  | none =>
    cases SourceFile.refusal? u.text with
    | some cause => rfl
    | none => cases (u.lowered file).imports (u.source file) <;> rfl

theorem read_eq_ok {u : SourceUnit} {file : Nat} {imports : List Import} {contracts : List Contract}
    (h : u.read file = .ok (imports, contracts)) :
    u.fault? = none ∧ SourceFile.refusal? u.text = none ∧
      (u.lowered file).imports (u.source file) = .ok imports ∧
      contracts = (u.lowered file).contracts (u.source file) := by
  rw [read] at h
  cases hfault : u.fault? with
  | some fault => rw [hfault] at h; cases h
  | none =>
    cases hrefusal : SourceFile.refusal? u.text with
    | some cause => rw [hfault, hrefusal] at h; cases h
    | none =>
      rw [hfault, hrefusal] at h
      cases himports : (u.lowered file).imports (u.source file) with
      | error fault => simp only [himports] at h; cases h
      | ok found =>
        simp only [himports] at h
        cases h
        exact ⟨rfl, rfl, rfl, rfl⟩

/-- Contracts come out of a file under its number and without any classification. -/
theorem relabel_of_mem_read {u : SourceUnit} {file : Nat} {imports : List Import}
    {contracts : List Contract} (h : u.read file = .ok (imports, contracts)) {c : Contract}
    (hc : c ∈ contracts) : c.relabel NodeKind.unclassified (fun _ => file) = c := by
  have hself := u.read_eq file file
  rw [h] at hself
  have hmap : contracts = contracts.map (Contract.relabel NodeKind.unclassified fun _ => file) :=
    congrArg Prod.snd (Except.ok.inj hself)
  exact List.map_inj_left.1 (hmap.symm.trans (List.map_id' contracts).symm) c hc

end SourceUnit

namespace Contract

/-- Contracts under consecutive numbers. -/
def numberedFrom (n : Nat) (cs : List Contract) : List Contract :=
  cs.mapIdx fun i c => c.numbered (n + i)

/-- An index of names with the numbers of more contracts. -/
def enterNames (index : Entries String (List Nat)) (cs : List Contract) :
    Entries String (List Nat) :=
  cs.foldl (fun index c => index.update c.name [] (· ++ [c.id])) index

theorem enterNames_append (index : Entries String (List Nat)) (cs ds : List Contract) :
    enterNames index (cs ++ ds) = enterNames (enterNames index cs) ds := List.foldl_append

/-- Name and number, all that an index knows of a contract. -/
def label (c : Contract) : String × Nat := (c.name, c.id)

theorem enterNames_congr {cs ds : List Contract} (h : cs.map label = ds.map label)
    (index : Entries String (List Nat)) : enterNames index cs = enterNames index ds := by
  have hlabels : ∀ cs, enterNames index cs =
      (cs.map label).foldl (fun index l => index.update l.1 [] (· ++ [l.2])) index := by
    intro cs
    rw [List.foldl_map]
    rfl
  rw [hlabels, hlabels, h]

/-- Under each name, the numbers of the contracts of that name come behind those that are there. -/
theorem lookup_enterNames (index : Entries String (List Nat)) (cs : List Contract) (name : String) :
    ((enterNames index cs).lookup name).getD [] =
      (index.lookup name).getD [] ++ (cs.filter (·.name == name)).map id := by
  induction cs generalizing index with
  | nil => rw [enterNames, List.foldl_nil, List.filter_nil, List.map_nil, List.append_nil]
  | cons c cs ih =>
    rw [enterNames, List.foldl_cons, ← enterNames, ih, Entries.lookup_update, List.filter_cons]
    by_cases hname : name = c.name
    · subst hname
      simp
    · have hname' : (c.name == name) = false := beq_eq_false_iff_ne.2 (Ne.symm hname)
      simp [hname, hname']

end Contract

namespace Program

/-- The program with the imports and contracts of one more file. -/
def extended (p : Program) (u : SourceUnit) (imports : List Import) (contracts : List Contract) :
    Program where
  files := p.files ++ [⟨p.files.length, u.path, u.text⟩]
  contracts := p.contracts ++ Contract.numberedFrom p.contracts.length contracts
  byName := Contract.enterNames p.byName (Contract.numberedFrom p.contracts.length contracts)
  imports := p.imports ++ imports

theorem foldl_addContract (p : Program) (cs : List Contract) :
    cs.foldl (fun p c => (p.addContract c).2) p =
      { p with
        contracts := p.contracts ++ Contract.numberedFrom p.contracts.length cs
        byName := Contract.enterNames p.byName (Contract.numberedFrom p.contracts.length cs) } := by
  induction cs generalizing p with
  | nil => simp only [List.foldl_nil, Contract.numberedFrom, List.mapIdx_nil, List.append_nil,
      Contract.enterNames]
  | cons c cs ih =>
    rw [List.foldl_cons, ih]
    simp only [addContract, Contract.numberedFrom, List.mapIdx_cons, List.length_append,
      List.length_singleton, List.append_assoc, List.singleton_append, Nat.add_zero, Nat.add_assoc,
      Nat.add_comm 1, Contract.enterNames, List.foldl_cons]
    rfl

theorem register_eq (p : Program) (u : SourceUnit) :
    p.register u = (u.read p.files.length).map fun r =>
      (List.range' p.contracts.length r.2.length, p.extended u r.1 r.2) := by
  rw [register, SourceUnit.read, addFile]
  cases u.fault? with
  | some fault => rfl
  | none =>
    cases SourceFile.refusal? u.text with
    | some cause => rfl
    | none =>
      have hfile (r : Nat × Program) :
        Except.mapError (LoadError.refused u.path) (.ok r) = .ok r := rfl
      simp only [addContracts, foldl_addContract, SourceUnit.lowered, SourceUnit.source, bind,
        Except.bind, hfile]
      cases (Lowered.ofTree ⟨p.files.length, u.path, u.text⟩ u.tree).imports
        ⟨p.files.length, u.path, u.text⟩ <;> rfl

/-- An accepted file goes behind what the program holds. -/
theorem register_ok {p p' : Program} {u : SourceUnit} {ids : List Nat}
    (h : p.register u = .ok (ids, p')) :
    ∃ imports contracts, u.read p.files.length = .ok (imports, contracts) ∧
      p' = p.extended u imports contracts := by
  rw [register_eq] at h
  cases hr : u.read p.files.length with
  | error e => rw [hr] at h; cases h
  | ok r =>
    rw [hr] at h
    exact ⟨r.1, r.2, rfl, (congrArg Prod.snd (Except.ok.inj h)).symm⟩

theorem load_eq (p : Program) (settings : Settings) (u : SourceUnit) :
    p.load settings u = (p.register u).map fun r => (r.1, r.2.analyze settings) := by
  rw [load]
  cases p.register u <;> rfl

theorem load_ok {p p' : Program} {settings : Settings} {u : SourceUnit} {ids : List Nat}
    (h : p.load settings u = .ok (ids, p')) :
    ∃ r, p.register u = .ok (ids, r) ∧ p' = r.analyze settings := by
  rw [load_eq] at h
  cases hr : p.register u with
  | error e => rw [hr] at h; cases h
  | ok r =>
    rw [hr] at h
    cases h
    exact ⟨r.2, rfl, rfl⟩

theorem extended_unanalysed_congr {p q : Program} (h : p.unanalysed = q.unanalysed) (u : SourceUnit)
    (imports : List Import) (contracts : List Contract) :
    (p.extended u imports contracts).unanalysed = (q.extended u imports contracts).unanalysed := by
  obtain ⟨hfiles, hcontracts, hnames, himports⟩ := Program.mk.inj h
  have hlength : p.contracts.length = q.contracts.length := by
    simpa only [List.length_map] using congrArg List.length hcontracts
  simp only [unanalysed, extended, List.map_append, hfiles, hcontracts, hnames, himports, hlength]

/-- Loading a file does not depend on what analyses have left in the program. -/
theorem register_unanalysed_congr {p q : Program} (h : p.unanalysed = q.unanalysed)
    (u : SourceUnit) :
    (p.register u).map (fun r => r.2.unanalysed) = (q.register u).map fun r => r.2.unanalysed := by
  obtain ⟨hfiles, -, -, -⟩ := Program.mk.inj h
  rw [register_eq, register_eq, hfiles]
  cases u.read q.files.length with
  | error e => rfl
  | ok r => exact congrArg Except.ok (extended_unanalysed_congr h u r.1 r.2)

/-- Loads files in order without any analysis. -/
def registerAll (p : Program) (units : List SourceUnit) : Except LoadError Program :=
  units.foldlM (fun p u => (p.register u).map Prod.snd) p

/-- Loads files in order, each with an analysis of the whole program. -/
def loadAll (settings : Settings) (p : Program) (units : List SourceUnit) :
    Except LoadError Program :=
  units.foldlM (fun p u => (p.load settings u).map Prod.snd) p

theorem registerAll_concat (p : Program) (units : List SourceUnit) (u : SourceUnit) :
    p.registerAll (units ++ [u]) =
      (p.registerAll units).bind fun q => (q.register u).map Prod.snd := by
  rw [registerAll, List.foldlM_append]
  simp only [List.foldlM_cons, List.foldlM_nil, bind_pure]
  rfl

theorem loadAll_concat (settings : Settings) (p : Program) (units : List SourceUnit)
    (u : SourceUnit) :
    loadAll settings p (units ++ [u]) = (loadAll settings p units).bind fun q =>
      (q.register u).map fun r => r.2.analyze settings := by
  have hload : ∀ q : Program, (q.load settings u).map Prod.snd =
      (q.register u).map fun r => r.2.analyze settings := fun q => by
    rw [load_eq]
    cases q.register u <;> rfl
  rw [loadAll, List.foldlM_append]
  simp only [List.foldlM_cons, List.foldlM_nil, bind_pure, hload]
  rfl

theorem registerAll_concat_ok {p q : Program} {units : List SourceUnit} {u : SourceUnit}
    (h : p.registerAll (units ++ [u]) = .ok q) :
    ∃ r imports contracts, p.registerAll units = .ok r ∧
      u.read r.files.length = .ok (imports, contracts) ∧ q = r.extended u imports contracts := by
  rw [registerAll_concat] at h
  cases hr : p.registerAll units with
  | error e => rw [hr] at h; cases h
  | ok r =>
    rw [hr] at h
    change (r.register u).map Prod.snd = .ok q at h
    rw [register_eq] at h
    cases hread : u.read r.files.length with
    | error e => rw [hread] at h; cases h
    | ok found =>
      rw [hread] at h
      exact ⟨r, found.1, found.2, rfl, hread, (Except.ok.inj h).symm⟩

theorem registerAll_concat_of_read {p r : Program} {units : List SourceUnit} {u : SourceUnit}
    {imports : List Import} {contracts : List Contract} (h : p.registerAll units = .ok r)
    (hread : u.read r.files.length = .ok (imports, contracts)) :
    p.registerAll (units ++ [u]) = .ok (r.extended u imports contracts) := by
  rw [registerAll_concat, h]
  change (r.register u).map _ = _
  rw [register_eq, hread]
  rfl

theorem loadAll_concat_of_read {settings : Settings} {p r : Program} {units : List SourceUnit}
    {u : SourceUnit} {imports : List Import} {contracts : List Contract}
    (h : loadAll settings p units = .ok r)
    (hread : u.read r.files.length = .ok (imports, contracts)) :
    loadAll settings p (units ++ [u]) =
      .ok ((r.extended u imports contracts).analyze settings) := by
  rw [loadAll_concat, h]
  change (r.register u).map _ = _
  rw [register_eq, hread]
  rfl

end Program

/-! Two files, of which the first names a base that the second declares. -/
namespace Sample

def token (kind : String) (start stop : Nat) : ParseTree := { kind, start, stop }

def form (kind : String) (start stop : Nat) (children : List ParseTree := [])
    (fields : List (String × Nat) := []) : ParseTree :=
  { kind, start, stop, isNamed := true, children, fields }

/-- The declaration of a public function of a one-letter name whose body is one call of another. -/
private def callingFunction (start : Nat) : ParseTree :=
  let call := form "call_expression" (start + 22) (start + 25)
    [form "expression" (start + 22) (start + 23) [form "identifier" (start + 22) (start + 23)],
      token "(" (start + 23) (start + 24), token ")" (start + 24) (start + 25)] [("function", 0)]
  let statement := form "expression_statement" (start + 22) (start + 26)
    [form "expression" (start + 22) (start + 25) [call], token ";" (start + 25) (start + 26)]
  form "function_definition" start (start + 28)
    [token "function" start (start + 8), form "identifier" (start + 9) (start + 10),
      token "(" (start + 10) (start + 11), token ")" (start + 11) (start + 12),
      form "visibility" (start + 13) (start + 19) [token "public" (start + 13) (start + 19)],
      form "function_body" (start + 20) (start + 28)
        [token "\x7b" (start + 20) (start + 21),
          form "statement" (start + 22) (start + 26) [statement],
          token "\x7d" (start + 27) (start + 28)]]
    [("body", 5), ("name", 1)]

def derived : SourceUnit where
  path := "Derived.sol"
  text := "contract Ok2 is Ok \x7b function g() public \x7b f(); \x7d \x7d".toList
  tree := form "source_file" 0 51 [form "contract_declaration" 0 51
    [token "contract" 0 8, form "identifier" 9 12, token "is" 13 15,
      form "inheritance_specifier" 16 18
        [form "user_defined_type" 16 18 [form "identifier" 16 18]] [("ancestor", 0)],
      form "contract_body" 19 51
        [token "\x7b" 19 20, callingFunction 21, token "\x7d" 50 51]]
    [("body", 4), ("name", 1)]]

def base : SourceUnit where
  path := "Base.sol"
  text := "contract Ok \x7b function f() public \x7b g(); \x7d \x7d".toList
  tree := form "source_file" 0 44 [form "contract_declaration" 0 44
    [token "contract" 0 8, form "identifier" 9 11,
      form "contract_body" 12 44
        [token "\x7b" 12 13, callingFunction 14, token "\x7d" 43 44]]
    [("body", 2), ("name", 1)]]

theorem eq_ok_of_mem_toOption {ε α : Type} {x : Except ε α} {a : α} (h : a ∈ x.toOption) :
    x = .ok a := by
  cases x with
  | error e => cases h
  | ok b => exact congrArg Except.ok (Option.some.inj h)

end Sample

end ContractAtlas
