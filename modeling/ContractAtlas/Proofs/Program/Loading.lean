import ContractAtlas.Proofs.Call.Completion
import ContractAtlas.Proofs.Grammar.Body
import ContractAtlas.Proofs.Program.Registration
import ContractAtlas.Proofs.Source.Limit

/-! Loading a file either changes nothing or puts all of the file behind what the program holds. To
say so of a program that is changed in place, loading is told a second time, as stages that each
work on the program as the stages before have left it. -/
namespace ContractAtlas

/-- A step that works on a program in place and may give up, with all that is done by then. -/
abbrev Stage := ExceptT LoadError (StateM Program)

namespace Stage
variable {α β : Type}

/-- What a stage says and what it leaves of a program. -/
def on (x : Stage α) (p : Program) : Except LoadError α × Program := x.run.run p

theorem on_bind_ok {x : Stage α} {p p' : Program} {a : α} (h : x.on p = (.ok a, p'))
    (f : α → Stage β) : (x >>= f).on p = (f a).on p' := by
  change (ExceptT.bindCont f (x.on p).1).run (x.on p).2 = _
  rw [h]
  rfl

theorem on_bind_error {x : Stage α} {p p' : Program} {e : LoadError} (h : x.on p = (.error e, p'))
    (f : α → Stage β) : (x >>= f).on p = (.error e, p') := by
  change (ExceptT.bindCont f (x.on p).1).run (x.on p).2 = _
  rw [h]
  rfl

end Stage

namespace SourceUnit

def checkSyntax (u : SourceUnit) : Stage Unit :=
  match u.fault? with
  | some fault => throw fault
  | none => pure ()

def enterFile (u : SourceUnit) : Stage Nat := do
  match (← get).addFile u.path u.text with
  | .error cause => throw (.refused u.path cause)
  | .ok (file, p) =>
    set p
    return file

def enterImports (u : SourceUnit) (file : Nat) : Stage Unit :=
  match (u.lowered file).imports (u.source file) with
  | .error fault => throw (.importFault fault)
  | .ok imports => forM imports fun i => modify (·.addImport i)

def enterContracts (u : SourceUnit) (file : Nat) : Stage (List Nat) :=
  ((u.lowered file).contracts (u.source file)).mapM fun c => modifyGet (·.addContract c)

/-- Loads a file in place, and analyses the whole program if there are settings for that. -/
def enter (u : SourceUnit) (analysis : Option Settings) : Stage (List Nat) := do
  u.checkSyntax
  let file ← u.enterFile
  u.enterImports file
  let ids ← u.enterContracts file
  analysis.forM fun settings => modify (·.analyze settings)
  return ids

end SourceUnit

namespace Program
variable (p : Program)

theorem on_get : Stage.on get p = (.ok p, p) := rfl

theorem on_checkSyntax_of_none {u : SourceUnit} (h : u.fault? = none) :
    u.checkSyntax.on p = (.ok (), p) := by
  rw [SourceUnit.checkSyntax, h]
  rfl

theorem on_forM_addImport (imports : List Import) :
    Stage.on (forM imports fun i => modify (·.addImport i)) p =
      (.ok (), { p with imports := p.imports ++ imports }) := by
  induction imports generalizing p with
  | nil =>
    rw [List.append_nil]
    rfl
  | cons i imports ih =>
    have hfirst : Stage.on (modify (·.addImport i)) p = (.ok (), p.addImport i) := rfl
    rw [List.forM_cons, Stage.on_bind_ok hfirst, ih, addImport, List.append_assoc,
      List.singleton_append]

theorem on_mapM_addContract (contracts : List Contract) :
    Stage.on (contracts.mapM fun c => modifyGet (·.addContract c)) p =
      (.ok (List.range' p.contracts.length contracts.length),
        { p with
          contracts := p.contracts ++ Contract.numberedFrom p.contracts.length contracts
          byName := Contract.enterNames p.byName
            (Contract.numberedFrom p.contracts.length contracts) }) := by
  rw [← foldl_addContract]
  induction contracts generalizing p with
  | nil => rfl
  | cons c contracts ih =>
    have hfirst : Stage.on (modifyGet (·.addContract c)) p =
      (.ok p.contracts.length, (p.addContract c).2) := rfl
    have hlength : (p.addContract c).2.contracts.length = p.contracts.length + 1 :=
      List.length_append
    rw [List.mapM_cons, Stage.on_bind_ok hfirst, Stage.on_bind_ok (ih _), hlength]
    rfl

/-- Loads a file, with an analysis of the whole program if there are settings for that. -/
def loadWith (analysis : Option Settings) (u : SourceUnit) :
    Except LoadError (List Nat × Program) :=
  match analysis with
  | some settings => p.load settings u
  | none => p.register u

/-- The program after an analysis, if there are settings for one. -/
def settled (analysis : Option Settings) : Program :=
  match analysis with
  | some settings => p.analyze settings
  | none => p

theorem loadWith_eq (analysis : Option Settings) (u : SourceUnit) :
    p.loadWith analysis u = (u.read p.files.length).map fun r =>
      (List.range' p.contracts.length r.2.length, (p.extended u r.1 r.2).settled analysis) := by
  cases analysis with
  | none => exact p.register_eq u
  | some settings =>
    rw [loadWith, load_eq, register_eq]
    cases u.read p.files.length <;> rfl

theorem loadWith_eq_error_iff {analysis : Option Settings} {u : SourceUnit} {e : LoadError} :
    p.loadWith analysis u = .error e ↔ u.read p.files.length = .error e := by
  rw [loadWith_eq]
  cases u.read p.files.length with
  | error e' => exact ⟨fun h => by cases h; rfl, fun h => by cases h; rfl⟩
  | ok r => exact ⟨nofun, nofun⟩

/-- An accepted file passes every stage. -/
theorem on_enter_of_ok {u : SourceUnit} {imports : List Import} {contracts : List Contract}
    (h : u.read p.files.length = .ok (imports, contracts)) (analysis : Option Settings) :
    (u.enter analysis).on p =
      (.ok (List.range' p.contracts.length contracts.length),
        (p.extended u imports contracts).settled analysis) := by
  obtain ⟨hfault, hrefusal, himports, rfl⟩ := u.read_eq_ok h
  let q : Program := { p with files := p.files ++ [⟨p.files.length, u.path, u.text⟩] }
  have hfile : u.enterFile.on p = (.ok p.files.length, q) := by
    have hadd : p.addFile u.path u.text = .ok (p.files.length, q) := by rw [addFile, hrefusal]
    rw [SourceUnit.enterFile, Stage.on_bind_ok (on_get p), hadd]
    rfl
  have hentered : (u.enterImports p.files.length).on q =
      (.ok (), { q with imports := p.imports ++ imports }) := by
    rw [SourceUnit.enterImports, himports]
    exact on_forM_addImport q imports
  have hcontracts := on_mapM_addContract { q with imports := p.imports ++ imports }
    ((u.lowered p.files.length).contracts (u.source p.files.length))
  rw [SourceUnit.enter, Stage.on_bind_ok (on_checkSyntax_of_none p hfault), Stage.on_bind_ok hfile,
    Stage.on_bind_ok hentered, SourceUnit.enterContracts, Stage.on_bind_ok hcontracts]
  cases analysis <;> rfl

/-- A refused file is refused before anything is entered, unless an import statement breaks down. -/
theorem on_enter_of_error {u : SourceUnit} {e : LoadError} (h : u.read p.files.length = .error e)
    (hreadable : ∀ fault, e ≠ .importFault fault) (analysis : Option Settings) :
    (u.enter analysis).on p = (.error e, p) := by
  rw [SourceUnit.read] at h
  rw [SourceUnit.enter]
  cases hfault : u.fault? with
  | some fault =>
    rw [hfault] at h
    cases h
    have hsyntax : u.checkSyntax.on p = (.error e, p) := by
      rw [SourceUnit.checkSyntax, hfault]
      rfl
    exact Stage.on_bind_error hsyntax _
  | none =>
    rw [Stage.on_bind_ok (on_checkSyntax_of_none p hfault)]
    cases hrefusal : SourceFile.refusal? u.text with
    | some cause =>
      rw [hfault, hrefusal] at h
      cases h
      have hfile : u.enterFile.on p = (.error (.refused u.path (.source cause)), p) := by
        have hadd : p.addFile u.path u.text = .error (.source cause) := by rw [addFile, hrefusal]
        rw [SourceUnit.enterFile, Stage.on_bind_ok (on_get p), hadd]
        rfl
      exact Stage.on_bind_error hfile _
    | none =>
      rw [hfault, hrefusal] at h
      cases himports : (u.lowered p.files.length).imports (u.source p.files.length) with
      | error fault =>
        simp only [himports] at h
        exact absurd (Except.error.inj h).symm (hreadable fault)
      | ok imports => simp only [himports] at h; cases h

end Program

namespace SourceUnit

/-- The source breaks the grammar somewhere, or the file is over a limit. -/
def Refused (u : SourceUnit) : Prop :=
  (∃ t ∈ u.tree.subtrees, t.IsFault) ∨ SourceFile.OverLimit u.text

/-- Nothing else makes a file fail, as long as no import statement breaks down. -/
theorem exists_read_error_iff {u : SourceUnit} {file : Nat}
    (hreadable : ∀ fault, u.read file ≠ .error (.importFault fault)) :
    (∃ e, u.read file = .error e) ↔ u.Refused := by
  have hfault : u.fault?.isSome = true ↔ ∃ t ∈ u.tree.subtrees, t.IsFault := by
    rw [fault?, Option.isSome_map, ParseTree.isSome_firstFault?, ParseTree.hasFault_iff]
  rw [Refused, ← hfault, ← SourceFile.isSome_refusal?_iff]
  rw [read] at hreadable ⊢
  revert hreadable
  cases u.fault? with
  | some fault => exact fun _ => iff_of_true ⟨fault, rfl⟩ (.inl rfl)
  | none =>
    cases hrefusal : SourceFile.refusal? u.text with
    | some cause => exact fun _ => iff_of_true ⟨_, rfl⟩ (.inr rfl)
    | none =>
      intro hreadable
      cases himports : (u.lowered file).imports (u.source file) with
      | error fault => exact absurd (by simp only [himports]) (hreadable fault)
      | ok imports => simp

/-- The imports that a file states, in order, those that can be read as such. -/
def statedImports (u : SourceUnit) (file : Nat) : List Import :=
  (u.tree.content.filter fun t => t.kind == "import_directive").filterMap fun t =>
    (Import.ofText ((u.source file).textOf t)).toOption.join.map fun i =>
      { i with span := (u.source file).spanOf t, excerpt := (u.source file).excerptOf t }

private theorem filterMap_of_mapM {α β ε : Type} {f : α → Except ε (Option β)} {as : List α}
    {found : List (Option β)} (h : as.mapM f = .ok found) :
    found.filterMap (fun b => b) = as.filterMap fun a => (f a).toOption.join := by
  induction as generalizing found with
  | nil =>
    cases h
    rfl
  | cons a as ih =>
    rw [List.mapM_cons] at h
    cases hfirst : f a with
    | error e =>
      rw [hfirst] at h
      cases h
    | ok b =>
      cases hrest : as.mapM f with
      | error e =>
        rw [hfirst, hrest] at h
        cases h
      | ok bs =>
        rw [hfirst, hrest] at h
        cases h
        rw [List.filterMap_cons, List.filterMap_cons, ih hrest, hfirst]
        rfl

theorem imports_eq {u : SourceUnit} {file : Nat} {imports : List Import}
    (h : (u.lowered file).imports (u.source file) = .ok imports) :
    imports = u.statedImports file := by
  have hdirectives : (Lowered.content (u.lowered file).parts).filter
        (fun p => p.kind == "import_directive") =
      (u.tree.content.filter fun t => t.kind == "import_directive").map
        (Lowered.ofTree (u.source file)) := by
    rw [lowered, Lowered.ofTree_parts, Lowered.content_ofTree, List.filter_map]
    simp only [Function.comp_def, Lowered.kind, Lowered.ofTree_tree]
  rw [Lowered.imports_eq_mapM, hdirectives] at h
  cases hfound : ((u.tree.content.filter fun t => t.kind == "import_directive").map
      (Lowered.ofTree (u.source file))).mapM (Lowered.placedImport (u.source file)) with
  | error e =>
    rw [hfound] at h
    cases h
  | ok found =>
    rw [hfound] at h
    cases h
    rw [filterMap_of_mapM hfound, List.filterMap_map, statedImports]
    refine congrArg (fun read => List.filterMap read _) (funext fun t => ?_)
    rw [Function.comp_apply, Lowered.placedImport, Lowered.ofTree_tree]
    rcases Import.ofText ((u.source file).textOf t) with _ | _ | i <;> rfl

end SourceUnit

/-- Contracts come in the order of their declarations. -/
theorem Lowered.forall₂_contract? {s : TreeSource} (ts : List ParseTree) :
    List.Forall₂ (fun t c => (ofTree s t).contract? s = some c) (ts.filter ParseTree.isContract)
      ((ts.map (ofTree s)).filterMap (contract? s)) := by
  induction ts with
  | nil => exact .nil
  | cons t ts ih =>
    rw [List.map_cons]
    rcases contract?_ofTree (s := s) t with ⟨hcontract, kind, hc⟩ | ⟨hcontract, hc⟩
    · rw [List.filter_cons_of_pos hcontract, List.filterMap_cons_some hc]
      exact .cons hc ih
    · rw [List.filter_cons_of_neg (by rw [hcontract]; exact Bool.false_ne_true),
        List.filterMap_cons_none hc]
      exact ih

namespace SourceUnit

/-- The contracts of a file: those that it declares, in order, and behind them one with the name of
the file for what it declares outside of them, if it does. -/
def Declares (u : SourceUnit) (file : Nat) (contracts : List Contract) : Prop :=
  let s := u.source file
  let members := (u.lowered file).fileMembers s
  ∃ declared gathered, contracts = declared ++ gathered ∧
    List.Forall₂ (fun t c => (Lowered.ofTree s t).contract? s = some c)
      (u.tree.content.filter ParseTree.isContract) declared ∧
    (members = [] ∧ gathered = [] ∨ members ≠ [] ∧ gathered = [members.foldl Contract.add
      { name := u.path, file := file, span := s.spanOf u.tree, excerpt := s.excerptOf u.tree }])

theorem declares_contracts (u : SourceUnit) (file : Nat) :
    u.Declares file ((u.lowered file).contracts (u.source file)) := by
  have hdeclared := Lowered.forall₂_contract? (s := u.source file) u.tree.content
  have hparts : Lowered.content (u.lowered file).parts =
      u.tree.content.map (Lowered.ofTree (u.source file)) := by
    rw [lowered, Lowered.ofTree_parts, Lowered.content_ofTree]
  rw [Declares, Lowered.contracts, hparts]
  cases hmembers : (u.lowered file).fileMembers (u.source file) with
  | nil => exact ⟨_, [], (List.append_nil _).symm, hdeclared, .inl ⟨rfl, rfl⟩⟩
  | cons m ms =>
    refine ⟨_, _, rfl, hdeclared, .inr ⟨List.cons_ne_nil m ms, ?_⟩⟩
    rw [lowered, Lowered.ofTree_tree]
    rfl

end SourceUnit

namespace Sample

/-- A contract on the last line that a file may have. -/
def longest : SourceUnit where
  path := "Long.sol"
  text := SourceFile.onLastLine "contract C \x7b\x7d".toList
  tree := form "source_file" 999999 1000012 [form "contract_declaration" 999999 1000012
    [token "contract" 999999 1000007, form "identifier" 1000008 1000009,
      form "contract_body" 1000010 1000012
        [token "\x7b" 1000010 1000011, token "\x7d" 1000011 1000012]]
    [("body", 2), ("name", 1)]]

end Sample

namespace Program

/-- One more file stands behind what the program holds: the file, its imports and its contracts,
under the next numbers, with their names in the index. Of what was there, an analysis may have
completed the contracts. -/
structure Appended (p : Program) (u : SourceUnit) (analysis : Option Settings) (ids : List Nat)
    (p' : Program) : Prop where
  files : p'.files = p.files ++ [⟨p.files.length, u.path, u.text⟩]
  imports : p'.imports = p.imports ++ u.statedImports p.files.length
  contracts : ∃ contracts, u.Declares p.files.length contracts ∧
    ids = List.range' p.contracts.length contracts.length ∧
    let added := Contract.numberedFrom p.contracts.length contracts
    let all := p.contracts ++ added
    p'.byName = Contract.enterNames p.byName added ∧
    match analysis with
    | none => p'.contracts = all
    | some _ => List.Forall₂ Contract.Completes all p'.contracts

theorem appended_extended (p : Program) {u : SourceUnit} {imports : List Import}
    {contracts : List Contract} (h : u.read p.files.length = .ok (imports, contracts))
    (analysis : Option Settings) :
    p.Appended u analysis (List.range' p.contracts.length contracts.length)
      ((p.extended u imports contracts).settled analysis) := by
  obtain ⟨-, -, himports, rfl⟩ := SourceUnit.read_eq_ok h
  rw [SourceUnit.imports_eq himports]
  have hdeclares := u.declares_contracts p.files.length
  cases analysis with
  | none => exact ⟨rfl, rfl, _, hdeclares, rfl, rfl, rfl⟩
  | some settings =>
    obtain ⟨contracts, hanalyze, hcompletes⟩ := @completes_analyze settings
      (p.extended u (u.statedImports p.files.length)
        ((u.lowered p.files.length).contracts (u.source p.files.length)))
    rw [settled, hanalyze]
    exact ⟨rfl, rfl, _, hdeclares, rfl, rfl, hcompletes⟩

/-- Loading fails if and only if the source breaks the grammar or the file is over a limit, and
leaves the program as it was; else it appends the file and all of its contents. This holds with and
without an analysis, for every file without an import statement that breaks down. -/
theorem loadWith_all_or_nothing (p : Program) (analysis : Option Settings) (u : SourceUnit)
    (hreadable : ∀ fault, p.loadWith analysis u ≠ .error (.importFault fault)) :
    ((∃ e, p.loadWith analysis u = .error e) ↔ u.Refused) ∧
    (∀ e, p.loadWith analysis u = .error e → (u.enter analysis).on p = (.error e, p)) ∧
    ∀ ids p', p.loadWith analysis u = .ok (ids, p') →
      (u.enter analysis).on p = (.ok ids, p') ∧ p.Appended u analysis ids p' := by
  simp only [ne_eq, loadWith_eq_error_iff] at hreadable ⊢
  refine ⟨SourceUnit.exists_read_error_iff hreadable, fun e h => ?_, fun ids p' h => ?_⟩
  · exact on_enter_of_error p h (fun fault he => hreadable fault (he ▸ h)) analysis
  · rw [loadWith_eq] at h
    cases hread : u.read p.files.length with
    | error e =>
      rw [hread] at h
      cases h
    | ok r =>
      rw [hread] at h
      cases h
      exact ⟨on_enter_of_ok p hread analysis, p.appended_extended hread analysis⟩

/-- In the sample the second file is entered behind the first. -/
theorem loadWith_all_or_nothing_sample :
    ∃ p, ({} : Program).loadWith (some {}) Sample.derived = .ok ([0], p) ∧
      (∀ fault, p.loadWith (some {}) Sample.base ≠ .error (.importFault fault)) ∧
      ¬ Sample.base.Refused ∧
      ∃ p', (Sample.base.enter (some {})).on p = (.ok [1], p') ∧
        p.Appended Sample.base (some {}) [1] p' := by
  have hrun : ∃ r ∈ (({} : Program).loadWith (some {}) Sample.derived).toOption,
      ∃ r' ∈ (r.2.loadWith (some {}) Sample.base).toOption, r.1 = [0] ∧ r'.1 = [1] := by
    decide +kernel
  obtain ⟨⟨_, p⟩, hp, ⟨_, p'⟩, hp', rfl, rfl⟩ := hrun
  have hp := Sample.eq_ok_of_mem_toOption hp
  have hp' := Sample.eq_ok_of_mem_toOption hp'
  have hreadable : ∀ fault, p.loadWith (some {}) Sample.base ≠ .error (.importFault fault) :=
    fun fault he => by cases hp'.symm.trans he
  obtain ⟨hrefused, -, happended⟩ := loadWith_all_or_nothing p (some {}) Sample.base hreadable
  refine ⟨p, hp, hreadable, fun h => ?_, p', happended [1] p' hp'⟩
  obtain ⟨e, he⟩ := hrefused.2 h
  cases hp'.symm.trans he

/-- No program accepts a file that has as many lines as a file may have, if its last line is not
empty. -/
theorem full_file_refused :
    Sample.longest.tree.hasFault = false ∧
      Sample.longest.text.byteSize ≤ SourceFile.maxBytes ∧
      Sample.longest.text.lines.length = SourceFile.maxLines ∧
      ∀ (p : Program) (analysis : Option Settings), p.loadWith analysis Sample.longest =
        .error (.refused "Long.sol" (.source (.tooManyLines SourceFile.maxLines))) := by
  have hlines : Text.lines "contract C \x7b\x7d".toList =
      [⟨"contract C \x7b\x7d".toList, none⟩] := by
    decide
  have hfault : Sample.longest.tree.firstFault? = none := rfl
  have hrefusal : SourceFile.refusal? Sample.longest.text =
      some (.tooManyLines SourceFile.maxLines) :=
    SourceFile.refusal?_onLastLine hlines (by decide) (by decide)
  refine ⟨rfl, ?_, ?_, fun p analysis => ?_⟩
  · rw [Sample.longest, SourceFile.byteSize_onLastLine]
    decide
  · rw [Sample.longest, SourceFile.lines_onLastLine, hlines, List.length_append,
      List.length_replicate]
    rfl
  · rw [loadWith_eq_error_iff, SourceUnit.read, SourceUnit.fault?, hfault, hrefusal]
    rfl

end Program

end ContractAtlas
