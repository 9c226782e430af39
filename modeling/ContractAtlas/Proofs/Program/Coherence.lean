import ContractAtlas.Proofs.Call.ScopeGrowth
import ContractAtlas.Proofs.Program.Loading

/-! What holds of a program whatever files it was asked to load: contracts and files are found under
their own numbers, members point back to their contracts, the index of names is in step with the
contracts, and contracts and imports stand in the order of the files that they come from. -/
namespace ContractAtlas

namespace SourceUnit
variable {u : SourceUnit} {file : Nat} {imports : List Import} {contracts : List Contract}

theorem file_of_mem_contracts (h : u.read file = .ok (imports, contracts)) {c : Contract}
    (hc : c ∈ contracts) : c.file = file :=
  (congrArg Contract.file (relabel_of_mem_read h hc)).symm

theorem file_of_mem_imports (h : u.read file = .ok (imports, contracts)) {i : Import}
    (hi : i ∈ imports) : i.span.file = file := by
  have hself := u.read_eq file file
  rw [h] at hself
  have hmap : imports = imports.map (Import.renumber fun _ => file) :=
    congrArg Prod.fst (Except.ok.inj hself)
  have hi' := List.map_inj_left.1 (hmap.symm.trans (List.map_id' imports).symm) i hi
  exact (congrArg (fun i : Import => i.span.file) hi').symm

theorem summary_of_mem_contracts (h : u.read file = .ok (imports, contracts)) {c : Contract}
    (hc : c ∈ contracts) {f : Function} (hf : f ∈ c.functions) : f.summary = {} := by
  obtain ⟨-, -, -, rfl⟩ := u.read_eq_ok h
  obtain ⟨-, -, -, hsummary⟩ := Lowered.exists_functionTree hc hf
  exact hsummary

end SourceUnit

namespace Program

/-- The program with one more file and nothing of what the file declares. -/
def withFile (p : Program) (u : SourceUnit) : Program :=
  { p with files := p.files ++ [⟨p.files.length, u.path, u.text⟩] }

/-- An import statement that breaks down leaves the file in the program. -/
theorem on_enter_of_importFault (p : Program) {u : SourceUnit} {fault : ImportFault}
    (h : u.read p.files.length = .error (.importFault fault)) (analysis : Option Settings) :
    (u.enter analysis).on p = (.error (.importFault fault), p.withFile u) := by
  rw [SourceUnit.read] at h
  cases hfault : u.fault? with
  | some found =>
    rw [hfault] at h
    cases h
    rw [SourceUnit.fault?] at hfault
    obtain ⟨t, -, ht⟩ := Option.map_eq_some_iff.1 hfault
    cases ht
  | none =>
    cases hrefusal : SourceFile.refusal? u.text with
    | some cause =>
      rw [hfault, hrefusal] at h
      cases h
    | none =>
      rw [hfault, hrefusal] at h
      cases himports : (u.lowered p.files.length).imports (u.source p.files.length) with
      | ok imports =>
        simp only [himports] at h
        cases h
      | error found =>
        simp only [himports] at h
        cases h
        have hfile : u.enterFile.on p = (.ok p.files.length, p.withFile u) := by
          have hadd : p.addFile u.path u.text = .ok (p.files.length, p.withFile u) := by
            rw [addFile, hrefusal]
            rfl
          rw [SourceUnit.enterFile, Stage.on_bind_ok (on_get p), hadd]
          rfl
        have hentered : (u.enterImports p.files.length).on (p.withFile u) =
            (.error (.importFault fault), p.withFile u) := by
          rw [SourceUnit.enterImports, himports]
          rfl
        rw [SourceUnit.enter, Stage.on_bind_ok (on_checkSyntax_of_none p hfault),
          Stage.on_bind_ok hfile]
        exact Stage.on_bind_error hentered _

/-- All that entering a file can leave of a program. -/
theorem on_enter_cases (p : Program) (u : SourceUnit) (analysis : Option Settings) :
    ((u.enter analysis).on p).2 = p ∨ ((u.enter analysis).on p).2 = p.withFile u ∨
      ∃ imports contracts, u.read p.files.length = .ok (imports, contracts) ∧
        ((u.enter analysis).on p).2 = (p.extended u imports contracts).settled analysis := by
  cases hread : u.read p.files.length with
  | ok found => exact .inr (.inr ⟨found.1, found.2, rfl, by rw [on_enter_of_ok p hread]⟩)
  | error e =>
    by_cases hreadable : ∀ fault, e ≠ .importFault fault
    · exact .inl (by rw [on_enter_of_error p hread hreadable])
    · obtain ⟨fault, he⟩ := Classical.not_forall_not.1 hreadable
      subst he
      exact .inr (.inl (by rw [on_enter_of_importFault p hread]))

/-- What a new file, its contracts and an analysis keep is kept by entering a file, whatever comes
of it. -/
theorem enter_induction {P : Program → Prop} {p : Program} {u : SourceUnit} (hp : P p)
    (withFile : P (p.withFile u))
    (extended : ∀ imports contracts, u.read p.files.length = .ok (imports, contracts) →
      P (p.extended u imports contracts))
    (analyze : ∀ q settings, P q → P (analyze settings q)) (analysis : Option Settings) :
    P ((u.enter analysis).on p).2 := by
  rcases p.on_enter_cases u analysis with he | he | ⟨imports, contracts, hread, he⟩
  · rw [he]
    exact hp
  · rw [he]
    exact withFile
  · rw [he]
    cases analysis with
    | none => exact extended imports contracts hread
    | some settings => exact analyze _ settings (extended imports contracts hread)

/-- Loads files one after the other into a program that is changed in place, each with an analysis
of the whole program if there are settings for it. A file that fails leaves what it leaves, and the
next one is loaded all the same. -/
def enterAll (p : Program) (loads : List (Option Settings × SourceUnit)) : Program :=
  loads.foldl (fun p load => ((load.2.enter load.1).on p).2) p

theorem enterAll_induction {P : Program → Prop} {p : Program} (hp : P p)
    {loads : List (Option Settings × SourceUnit)}
    (enter : ∀ load ∈ loads, ∀ q, P q → P ((load.2.enter load.1).on q).2) :
    P (p.enterAll loads) := by
  induction loads generalizing p with
  | nil => exact hp
  | cons load loads ih =>
    exact ih (enter load List.mem_cons_self p hp)
      fun later hlater => enter later (List.mem_cons_of_mem _ hlater)

/-- Everything in the program stands where its number says, and what is kept beside it is in
step. -/
structure Coherent (p : Program) : Prop where
  /-- A contract bears its place as its number, and its functions and modifiers point back to it. -/
  contract : ∀ i c, p.contract? i = some c → c.id = i ∧ (∀ f ∈ c.functions, f.contract = i) ∧
    ∀ m ∈ c.modifiers, m.contract = i
  index : p.Indexed
  /-- The flags of a function tell whether it has tags. -/
  summaries : ∀ c ∈ p.contracts, ∀ f ∈ c.functions, f.summary.Consistent
  file : ∀ j f, p.file? j = some f → f.id = j
  contractFile : ∀ c ∈ p.contracts, c.file < p.files.length
  importFile : ∀ i ∈ p.imports, i.span.file < p.files.length
  contractOrder : p.contracts.Pairwise fun c d => c.file ≤ d.file
  importOrder : p.imports.Pairwise fun i j => i.span.file ≤ j.span.file

namespace Coherent
variable {p : Program}

theorem empty : Coherent {} where
  contract _ _ h := by cases h
  index := rfl
  summaries _ h := by cases h
  file _ _ h := by cases h
  contractFile _ h := by cases h
  importFile _ h := by cases h
  contractOrder := .nil
  importOrder := .nil

theorem withFile (hp : p.Coherent) (u : SourceUnit) : (p.withFile u).Coherent where
  contract := hp.contract
  index := hp.index
  summaries := hp.summaries
  file j f hf := by
    rw [file?, Program.withFile, List.getElem?_append] at hf
    split at hf
    · exact hp.file j f hf
    · obtain ⟨hlt, rfl⟩ := List.getElem?_eq_some_iff.1 hf
      rw [List.length_singleton] at hlt
      rw [List.getElem_singleton]
      change p.files.length = j
      omega
  contractFile c hc := by
    rw [Program.withFile, List.length_append]
    exact Nat.lt_add_right _ (hp.contractFile c hc)
  importFile i hi := by
    rw [Program.withFile, List.length_append]
    exact Nat.lt_add_right _ (hp.importFile i hi)
  contractOrder := hp.contractOrder
  importOrder := hp.importOrder

/-- What comes from the newest file goes behind what comes from the files before it. -/
private theorem filed_append {α : Type} {file : α → Nat} {old new : List α} {n : Nat}
    (hold : ∀ a ∈ old, file a < n) (horder : old.Pairwise fun a b => file a ≤ file b)
    (hnew : ∀ a ∈ new, file a = n) :
    (∀ a ∈ old ++ new, file a < n + 1) ∧ (old ++ new).Pairwise fun a b => file a ≤ file b := by
  constructor
  · intro a ha
    rcases List.mem_append.1 ha with ha | ha
    · exact Nat.lt_succ_of_lt (hold a ha)
    · exact Nat.lt_succ_of_le (Nat.le_of_eq (hnew a ha))
  · refine List.pairwise_append.2 ⟨horder, ?_, fun a ha b hb => ?_⟩
    · refine List.pairwise_of_forall_mem_list fun a ha b hb => ?_
      exact Nat.le_of_eq ((hnew a ha).trans (hnew b hb).symm)
    · rw [hnew b hb]
      exact Nat.le_of_lt (hold a ha)

/-- The contracts of a new file come behind all others, under the next numbers. -/
theorem extended (hp : p.Coherent) {u : SourceUnit} {imports : List Import}
    {contracts : List Contract} (h : u.read p.files.length = .ok (imports, contracts)) :
    (p.extended u imports contracts).Coherent := by
  have hfiles : (p.extended u imports contracts).files.length = p.files.length + 1 :=
    List.length_append
  have hnew : ∀ c ∈ Contract.numberedFrom p.contracts.length contracts,
      c.file = p.files.length := by
    intro c hc
    obtain ⟨i, hi, rfl⟩ := List.mem_mapIdx.1 hc
    have hfile := SourceUnit.file_of_mem_contracts h (List.getElem_mem hi)
    exact hfile
  have hcontracts := filed_append hp.contractFile hp.contractOrder hnew
  have himports := filed_append hp.importFile hp.importOrder fun i hi =>
    SourceUnit.file_of_mem_imports h hi
  rw [← hfiles] at hcontracts himports
  refine ⟨fun i c hi => ?_, hp.index.append _ rfl rfl, fun c hc f hf => ?_, (hp.withFile u).file,
    hcontracts.1, himports.1, hcontracts.2, himports.2⟩
  · rw [contract?, Program.extended, List.getElem?_append] at hi
    split at hi
    · exact hp.contract i c hi
    · rename_i hle
      rw [Contract.numberedFrom, List.getElem?_mapIdx] at hi
      obtain ⟨d, -, rfl⟩ := Option.map_eq_some_iff.1 hi
      have hnumber : p.contracts.length + (i - p.contracts.length) = i := by omega
      rw [hnumber, Contract.numbered]
      refine ⟨rfl, fun f hf => ?_, fun m hm => ?_⟩
      · obtain ⟨f₀, -, rfl⟩ := List.mem_map.1 hf
        rfl
      · obtain ⟨m₀, -, rfl⟩ := List.mem_map.1 hm
        rfl
  · rcases List.mem_append.1 hc with hc | hc
    · exact hp.summaries c hc f hf
    · obtain ⟨i, hi, rfl⟩ := List.mem_mapIdx.1 hc
      obtain ⟨f₀, hf₀, rfl⟩ := List.mem_map.1 hf
      have hsummary := SourceUnit.summary_of_mem_contracts h (List.getElem_mem hi) hf₀
      change f₀.summary.Consistent
      rw [hsummary]
      exact CallSummary.consistent_default

/-- An analysis moves nothing. -/
theorem analyze (hp : p.Coherent) (settings : Settings) : (p.analyze settings).Coherent where
  contract i c hi := by
    rw [contract?, Program.analyze, List.getElem?_map] at hi
    obtain ⟨d, hd, rfl⟩ := Option.map_eq_some_iff.1 hi
    obtain ⟨hid, hfunctions, hmodifiers⟩ := hp.contract i d hd
    refine ⟨hid, fun f hf => ?_, fun m hm => ?_⟩
    · obtain ⟨f₀, hf₀, rfl⟩ := List.mem_map.1 hf
      exact hfunctions f₀ hf₀
    · obtain ⟨m₀, hm₀, rfl⟩ := List.mem_map.1 hm
      exact hmodifiers m₀ hm₀
  index := hp.index.analyze settings
  summaries c hc f hf := by
    obtain ⟨c₀, -, rfl⟩ := List.mem_map.1 hc
    obtain ⟨f₀, -, rfl⟩ := List.mem_map.1 hf
    exact f₀.consistent_summarize settings _
  file := hp.file
  contractFile c hc := by
    obtain ⟨d, hd, rfl⟩ := List.mem_map.1 hc
    exact hp.contractFile d hd
  importFile := hp.importFile
  contractOrder := List.pairwise_map.2 hp.contractOrder
  importOrder := hp.importOrder

theorem enter (hp : p.Coherent) (u : SourceUnit) (analysis : Option Settings) :
    ((u.enter analysis).on p).2.Coherent :=
  enter_induction hp (hp.withFile u) (fun _ _ hread => hp.extended hread)
    (fun _ settings hq => hq.analyze settings) analysis

theorem enterAll (hp : p.Coherent) (loads : List (Option Settings × SourceUnit)) :
    (p.enterAll loads).Coherent :=
  enterAll_induction hp fun load _ _ hq => hq.enter load.2 load.1

theorem numbered (hp : p.Coherent) : p.Numbered := fun i c hc => (hp.contract i c hc).1

end Coherent

/-- The contracts of a name are found all and in order, and the index has their numbers. -/
structure Resolves (p : Program) (name : String) : Prop where
  exact : ∀ c, c ∈ p.contractsNamed name ↔ ∃ i, p.contract? i = some c ∧ c.name = name
  ordered : (p.contractsNamed name).Pairwise fun c d => c.id < d.id
  first : p.contractNamed? name = (p.contractsNamed name).head?
  indexed : (p.byName.lookup name).getD [] = (p.contractsNamed name).map Contract.id

/-- An index in step with the contracts leads to all of a name. -/
theorem Coherent.resolves {p : Program} (hp : p.Coherent) (name : String) : p.Resolves name := by
  have hnamed := contractsNamed_eq_filter hp.numbered hp.index name
  refine ⟨fun c => ?_, ?_, ?_, ?_⟩
  · rw [hnamed, List.mem_filter, beq_iff_eq, List.mem_iff_getElem?]
    exact exists_and_right.symm
  · have hall : p.contracts.Pairwise fun c d => c.id < d.id := by
      refine List.pairwise_iff_getElem.2 fun i j hi hj hij => ?_
      rw [hp.numbered i _ (List.getElem?_eq_getElem hi),
        hp.numbered j _ (List.getElem?_eq_getElem hj)]
      exact hij
    rw [hnamed]
    exact hall.filter _
  · rw [hnamed, contractNamed?_eq_find? hp.numbered hp.index, List.head?_filter]
  · rw [hnamed, hp.index, Contract.lookup_enterNames]
    rfl

/-- Whatever files are loaded, accepted or not: everything in the program stands where its number
says, names lead to all contracts that bear them, and the flags of a function tell whether it has
tags. -/
theorem enterAll_coherent (loads : List (Option Settings × SourceUnit)) :
    let p := enterAll {} loads
    p.Coherent ∧ (∀ name, p.Resolves name) ∧ ∀ f ∈ p.functions,
      (f.summary.hasExternalCalls = true ↔ ∃ tag, f.summary.externalTargets.contains tag = true) ∧
      (f.summary.hasTransfers = true ↔ ∃ tag, f.summary.transfers.contains tag = true) := by
  intro p
  have hp : p.Coherent := Coherent.empty.enterAll loads
  refine ⟨hp, hp.resolves, fun f hf => ?_⟩
  obtain ⟨c, hc, hf⟩ := List.mem_flatMap.1 hf
  have hflags := hp.summaries c hc f hf
  exact ⟨hflags.external, hflags.transfers⟩

end Program

end ContractAtlas
