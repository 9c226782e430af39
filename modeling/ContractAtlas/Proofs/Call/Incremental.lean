import ContractAtlas.Proofs.Call.Classification
import ContractAtlas.Proofs.Program.Numbering
import Mathlib.Data.List.Induction

/-! Loading files one after the other with an analysis each time, against loading them all and
analysing once. Summaries are renewed by every analysis and come out the same. Classifications are
recorded once, in the scope of the moment, and later files do not correct them. -/
namespace ContractAtlas.Program

variable {settings : Settings}

/-- Every function, contract by contract, with its summary. -/
def summaries (p : Program) : List (List (Function × CallSummary)) :=
  p.contracts.map fun c => c.functions.map fun f => (f.unanalysed, f.summary)

theorem summaries_analyze (p : Program) :
    (p.analyze settings).summaries = p.unanalysed.contracts.map fun c => c.functions.map fun f =>
      (f, f.summarize settings ((Scope.ofContract p c.id).within f)) := by
  have hfunction : ∀ (f : Function) (s : Scope),
      ((f.analyze settings s).unanalysed, (f.analyze settings s).summary) =
        (f.unanalysed, f.unanalysed.summarize settings (s.within f.unanalysed)) := by
    intro f s
    rw [Function.unanalysed_analyze, Function.summarize_unanalysed, Function.within_unanalysed]
    rfl
  simp only [summaries, analyze, Contract.analyze, unanalysed, Contract.unanalysed, List.map_map,
    Function.comp_def, hfunction]

/-- The summaries of an analysis do not depend on what earlier analyses have left. -/
theorem summaries_analyze_congr {p q : Program} (h : p.unanalysed = q.unanalysed) :
    (p.analyze settings).summaries = (q.analyze settings).summaries := by
  rw [summaries_analyze, summaries_analyze, h]
  simp only [Scope.ofContract_unanalysed_congr h]

/-- Results that agree under one view agree under every view that it decides, with the same error if
there is one. -/
private theorem bind_map_congr {ε α β γ δ : Type} {view : α → β} {x y : Except ε α}
    {k l : α → Except ε γ} {f g : γ → δ} (h : x.map view = y.map view)
    (hk : ∀ a b, view a = view b → (k a).map f = (l b).map g) :
    (x.bind k).map f = (y.bind l).map g := by
  cases x with
  | error e =>
    cases y with
    | error e' => cases h; rfl
    | ok b => cases h
  | ok a =>
    cases y with
    | error e' => cases h
    | ok b => exact hk a b (Except.ok.inj h)

/-- What one more file makes of programs that differ by analyses. -/
private theorem map_loadAll_concat {δ : Type} {f g : Program → δ} {units : List SourceUnit}
    (h : (loadAll settings {} units).map unanalysed = (registerAll {} units).map unanalysed)
    (hfg : ∀ r r' : Program, r.unanalysed = r'.unanalysed → f (r.analyze settings) = g r')
    (u : SourceUnit) :
    (loadAll settings {} (units ++ [u])).map f = (registerAll {} (units ++ [u])).map g := by
  rw [loadAll_concat, registerAll_concat]
  refine bind_map_congr h fun p q hpq => ?_
  exact bind_map_congr (k := fun r => .ok (r.2.analyze settings)) (l := fun r => .ok r.2)
    (f := f) (g := g) (register_unanalysed_congr hpq u)
    fun r r' hr => congrArg Except.ok (hfg r.2 r'.2 hr)

/-- Analyses in between do not change what is loaded. -/
theorem unanalysed_loadAll (units : List SourceUnit) :
    (loadAll settings {} units).map unanalysed = (registerAll {} units).map unanalysed := by
  induction units using List.reverseRecOn with
  | nil => rfl
  | append_singleton units u ih =>
    exact map_loadAll_concat ih (fun r r' hr => (unanalysed_analyze r).trans hr) u

/-- Loading files with an analysis each time gives every function the summary that one analysis at
the end gives it. -/
theorem loadAll_summaries (settings : Settings) (units : List SourceUnit) :
    (loadAll settings {} units).map summaries =
      (registerAll {} units).map fun q => (q.analyze settings).summaries := by
  -- Only the last analysis matters, for it renews every summary.
  cases units using List.reverseRecOn with
  | nil => rfl
  | append_singleton units u =>
    exact map_loadAll_concat (unanalysed_loadAll units)
      (fun r r' hr => summaries_analyze_congr hr) u

/-- The recorded kinds of all calls, contract by contract and tree by tree. -/
def callKinds (p : Program) : List (List (List (Option CallKind))) :=
  p.contracts.map Contract.callKinds

theorem callKinds_analyze (p : Program) :
    (p.analyze settings).callKinds =
      p.contracts.map fun c => (c.analyze settings (Scope.ofContract p c.id)).callKinds := by
  rw [callKinds, analyze, List.map_map]
  rfl

/-- The program with the contracts of the files up to a number. -/
def upTo (p : Program) (file : Nat) : Program :=
  let contracts := p.contracts.filter fun c => c.file ≤ file
  { p with contracts, byName := Contract.enterNames [] contracts }

/-- A program as loading leaves it when nothing is analysed. -/
structure Raw (q : Program) : Prop where
  indexed : q.Indexed
  file_lt : ∀ c ∈ q.contracts, c.file < q.files.length
  fresh : ∀ c ∈ q.contracts, c.Fresh

/-- How a program loaded with an analysis each time stands to the one loaded with none: its calls
have the kinds that the scopes right after their own file gave them. -/
structure Annotated (settings : Settings) (p q : Program) : Prop where
  same : p.unanalysed = q.unanalysed
  kinds : p.callKinds = q.contracts.map fun c =>
    (c.analyze settings (Scope.ofContract (q.upTo c.file) c.id)).callKinds
  settled : ∀ c ∈ p.contracts, ∀ s, (c.analyze settings s).callKinds = c.callKinds

section Step
variable {p q : Program} {u : SourceUnit} {imports : List Import} {contracts : List Contract}

/-- The contracts of a file bear its number and have no classifications. -/
theorem new_of_read {file : Nat} (hread : u.read file = .ok (imports, contracts)) {n : Nat}
    {c : Contract} (hc : c ∈ Contract.numberedFrom n contracts) : c.file = file ∧ c.Fresh := by
  obtain ⟨i, hi, rfl⟩ := List.mem_mapIdx.1 hc
  have hself := SourceUnit.relabel_of_mem_read hread (List.getElem_mem hi)
  refine ⟨(congrArg Contract.file hself).symm, ?_⟩
  rw [Contract.Fresh, Contract.trees_numbered]
  exact Contract.fresh_of_relabel hself

theorem Raw.extended (hq : q.Raw) (hread : u.read q.files.length = .ok (imports, contracts)) :
    (q.extended u imports contracts).Raw := by
  have hlength : (q.extended u imports contracts).files.length = q.files.length + 1 := by
    rw [Program.extended, List.length_append, List.length_singleton]
  refine ⟨hq.indexed.append _ rfl rfl, fun c hc => ?_, fun c hc => ?_⟩
  · rw [hlength]
    rcases List.mem_append.1 hc with hc | hc
    · exact Nat.lt_succ_of_lt (hq.file_lt c hc)
    · exact Nat.lt_succ_of_le (Nat.le_of_eq (new_of_read hread hc).1)
  · rcases List.mem_append.1 hc with hc | hc
    · exact hq.fresh c hc
    · exact (new_of_read hread hc).2

/-- A new file is not among the files up to an earlier one. -/
theorem contracts_upTo_extended (hread : u.read q.files.length = .ok (imports, contracts))
    {file : Nat} (hfile : file < q.files.length) :
    ((q.extended u imports contracts).upTo file).contracts = (q.upTo file).contracts := by
  have hnew : (Contract.numberedFrom q.contracts.length contracts).filter
      (fun c => c.file ≤ file) = [] := by
    refine List.filter_eq_nil_iff.2 fun c hc hle => ?_
    rw [(new_of_read hread hc).1, decide_eq_true_eq] at hle
    omega
  rw [upTo, upTo, Program.extended, List.filter_append, hnew, List.append_nil]

/-- The new file is the last one. -/
theorem contracts_upTo_new (hq : q.Raw)
    (hread : u.read q.files.length = .ok (imports, contracts)) :
    ((q.extended u imports contracts).upTo q.files.length).contracts =
      (q.extended u imports contracts).contracts := by
  refine List.filter_eq_self.2 fun c hc => ?_
  have hlt := (hq.extended hread).file_lt c hc
  rw [Program.extended, List.length_append, List.length_singleton] at hlt
  exact decide_eq_true (by omega)

/-- One more file leaves the kinds of earlier calls and gives its own calls theirs in the scopes of
now. -/
theorem Annotated.extended (h : Annotated settings p q) (hq : q.Raw)
    (hread : u.read q.files.length = .ok (imports, contracts)) :
    Annotated settings ((p.extended u imports contracts).analyze settings)
      (q.extended u imports contracts) := by
  have hsame := extended_unanalysed_congr h.same u imports contracts
  have hlength : p.contracts.length = q.contracts.length := by
    simpa only [unanalysed, List.length_map] using
      congrArg (fun r => List.length r.contracts) h.same
  have hold : p.contracts.map (fun c => (c.analyze settings
        (Scope.ofContract (p.extended u imports contracts) c.id)).callKinds) =
      q.contracts.map fun c => (c.analyze settings
        (Scope.ofContract ((q.extended u imports contracts).upTo c.file) c.id)).callKinds := by
    calc _ = p.callKinds := List.map_congr_left fun c hc => h.settled c hc _
      _ = _ := h.kinds
      _ = _ := List.map_congr_left fun c hc => by
        have hcontracts := contracts_upTo_extended hread (hq.file_lt c hc)
        rw [Scope.ofContract_contracts_congr hcontracts
          (congrArg (Contract.enterNames []) hcontracts)]
  have hnew : (Contract.numberedFrom p.contracts.length contracts).map (fun c => (c.analyze settings
        (Scope.ofContract (p.extended u imports contracts) c.id)).callKinds) =
      (Contract.numberedFrom q.contracts.length contracts).map fun c => (c.analyze settings
        (Scope.ofContract ((q.extended u imports contracts).upTo c.file) c.id)).callKinds := by
    rw [hlength]
    refine List.map_congr_left fun c hc => ?_
    have hall := contracts_upTo_new hq hread
    have hnames := (congrArg (Contract.enterNames []) hall).trans (hq.extended hread).indexed.symm
    rw [(new_of_read hread hc).1, Scope.ofContract_contracts_congr hall hnames,
      Scope.ofContract_unanalysed_congr hsame]
  refine ⟨(unanalysed_analyze _).trans hsame, ?_, ?_⟩
  · rw [callKinds_analyze]
    change List.map _ (_ ++ _) = List.map _ (_ ++ _)
    rw [List.map_append, hold, hnew, List.map_append]
  · intro c hc s
    obtain ⟨d, -, rfl⟩ := List.mem_map.1 hc
    exact Contract.callKinds_analyze_analyze d

end Step

/-- The calls of a program loaded with an analysis each time have the kinds that the scopes right
after their own file gave them. -/
theorem annotated_loadAll {units : List SourceUnit} {q : Program}
    (h : registerAll {} units = .ok q) :
    ∃ p, loadAll settings {} units = .ok p ∧ Annotated settings p q ∧ q.Raw := by
  induction units using List.reverseRecOn generalizing q with
  | nil =>
    cases h
    exact ⟨{}, rfl, ⟨rfl, rfl, nofun⟩, ⟨rfl, nofun, nofun⟩⟩
  | append_singleton units u ih =>
    obtain ⟨r, imports, contracts, hr, hread, rfl⟩ := registerAll_concat_ok h
    obtain ⟨p, hp, hann, hraw⟩ := ih hr
    obtain ⟨hfiles, -, -, -⟩ := Program.mk.inj hann.same
    have hread' : u.read p.files.length = .ok (imports, contracts) := by
      rw [hfiles]
      exact hread
    exact ⟨_, loadAll_concat_of_read hp hread', hann.extended hraw hread, hraw.extended hread⟩

/-- Loading files with an analysis each time records the kinds that one analysis at the end records
exactly if no call is judged differently in the scope right after its file and in the final one. -/
theorem loadAll_callKinds_iff (settings : Settings) {units : List SourceUnit} {q : Program}
    (h : registerAll {} units = .ok q) :
    ∃ p, loadAll settings {} units = .ok p ∧
      (p.callKinds = (q.analyze settings).callKinds ↔
        ∀ c ∈ q.contracts, c.verdicts settings (Scope.ofContract (q.upTo c.file) c.id) =
          c.verdicts settings (Scope.ofContract q c.id)) := by
  obtain ⟨p, hp, hann, hraw⟩ := annotated_loadAll h
  refine ⟨p, hp, ?_⟩
  rw [hann.kinds, callKinds_analyze, List.map_inj_left]
  exact forall₂_congr fun c hc => Contract.callKinds_analyze_eq_iff (hraw.fresh c hc)

theorem loadAll_callKinds_iff_sample :
    ∃ q, registerAll {} [Sample.base, Sample.derived] = .ok q ∧
      ∃ p, loadAll {} {} [Sample.base, Sample.derived] = .ok p ∧
        p.callKinds = (q.analyze {}).callKinds := by
  have hrun : ∃ q ∈ (registerAll {} [Sample.base, Sample.derived]).toOption, ∀ c ∈ q.contracts,
      c.verdicts {} (Scope.ofContract (q.upTo c.file) c.id) =
        c.verdicts {} (Scope.ofContract q c.id) := by decide +kernel
  obtain ⟨q, hq, hverdicts⟩ := hrun
  have hregister := Sample.eq_ok_of_mem_toOption hq
  obtain ⟨p, hp, hiff⟩ := loadAll_callKinds_iff {} hregister
  exact ⟨q, hregister, p, hp, hiff.2 hverdicts⟩

/-- A file that inherits from a later one keeps the kind that its call got without the base: `f` is
public there, yet the call stays recorded as internal. -/
theorem loadAll_callKinds_stale :
    ∃ p ∈ (loadAll {} {} [Sample.derived, Sample.base]).toOption,
      ∃ q ∈ (registerAll {} [Sample.derived, Sample.base]).toOption,
        p.callKinds = [[[some .internal]], [[some .internal]]] ∧
          (q.analyze {}).callKinds = [[[some .publicFunction]], [[some .internal]]] ∧
          p.callKinds ≠ (q.analyze {}).callKinds := by
  decide +kernel

end ContractAtlas.Program
