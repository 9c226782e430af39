import ContractAtlas.Proofs.Program.Registration
import ContractAtlas.Proofs.Reach.Queue
import Mathlib.Data.List.Induction

/-! Programs as they can come about, the numbers of their contracts, and inheritance between
them. -/
namespace ContractAtlas.Program

/-- A program made by any sequence of additions, loads and analyses. -/
inductive Built : Program → Prop
  | empty : Built {}
  | addFile {p p' : Program} {path : String} {text : Text} {id : Nat} (hp : Built p)
      (h : p.addFile path text = .ok (id, p')) : Built p'
  | addImport {p : Program} (hp : Built p) (i : Import) : Built (p.addImport i)
  | addContract {p : Program} (hp : Built p) (c : Contract) : Built (p.addContract c).2
  | register {p p' : Program} {u : SourceUnit} {ids : List Nat} (hp : Built p)
      (h : p.register u = .ok (ids, p')) : Built p'
  | classifyCalls {p : Program} (hp : Built p) (settings : Settings) (contract index : Nat) :
      Built (p.classifyCalls settings contract index)
  | analyze {p : Program} (hp : Built p) (settings : Settings) : Built (p.analyze settings)

theorem addFile_ok {p p' : Program} {path : String} {text : Text} {id : Nat}
    (h : p.addFile path text = .ok (id, p')) :
    id = p.files.length ∧ p' = { p with files := p.files ++ [⟨p.files.length, path, text⟩] } := by
  rw [addFile] at h
  split at h
  · cases h
  · cases h
    exact ⟨rfl, rfl⟩

theorem labels_analyze (p : Program) (settings : Settings) :
    (p.analyze settings).contracts.map Contract.label = p.contracts.map Contract.label := by
  simp only [analyze, List.map_map]
  rfl

theorem labels_classifyCalls (p : Program) (settings : Settings) (contract index : Nat) :
    (p.classifyCalls settings contract index).contracts.map Contract.label =
      p.contracts.map Contract.label := by
  apply List.ext_getElem?
  intro i
  simp only [classifyCalls, List.getElem?_map, List.getElem?_modify]
  cases p.contracts[i]? with
  | none => rfl
  | some c =>
    simp only [Option.map_eq_map, Option.map_some]
    split <;> rfl

/-- Every contract bears its place in load order as its number. -/
def Numbered (p : Program) : Prop :=
  ∀ (i : Nat) (c : Contract), p.contracts[i]? = some c → c.id = i

/-- The index has the numbers of all contracts under their names, as entering them in order leaves
it. -/
def Indexed (p : Program) : Prop := p.byName = Contract.enterNames [] p.contracts

namespace Numbered
variable {p : Program}

theorem append (hp : p.Numbered) {q : Program} (cs : List Contract)
    (hq : q.contracts = p.contracts ++ Contract.numberedFrom p.contracts.length cs) :
    q.Numbered := by
  intro i c hi
  rw [hq, List.getElem?_append] at hi
  split at hi
  · exact hp i c hi
  · rename_i hlt
    rw [Contract.numberedFrom, List.getElem?_mapIdx] at hi
    obtain ⟨d, -, rfl⟩ := Option.map_eq_some_iff.1 hi
    change p.contracts.length + (i - p.contracts.length) = i
    omega

theorem of_labels (hp : p.Numbered) {q : Program}
    (hq : q.contracts.map Contract.label = p.contracts.map Contract.label) : q.Numbered := by
  intro i c hi
  have hlabel : (p.contracts.map Contract.label)[i]? = some c.label := by
    rw [← hq, List.getElem?_map, hi, Option.map_some]
  rw [List.getElem?_map] at hlabel
  obtain ⟨d, hd, he⟩ := Option.map_eq_some_iff.1 hlabel
  exact (congrArg Prod.snd he).symm.trans (hp i d hd)

theorem register (hp : p.Numbered) {p' : Program} {u : SourceUnit} {ids : List Nat}
    (h : p.register u = .ok (ids, p')) : p'.Numbered := by
  obtain ⟨imports, contracts, -, rfl⟩ := register_ok h
  exact hp.append contracts rfl

theorem analyze (hp : p.Numbered) (settings : Settings) : (p.analyze settings).Numbered :=
  hp.of_labels (p.labels_analyze settings)

theorem contract?_id (hp : p.Numbered) {c : Contract} (hc : c ∈ p.contracts) :
    p.contract? c.id = some c := by
  obtain ⟨i, hi⟩ := List.getElem?_of_mem hc
  rw [contract?, hp i c hi, hi]

end Numbered

namespace Indexed
variable {p : Program}

theorem append (hp : p.Indexed) {q : Program} (cs : List Contract)
    (hcontracts : q.contracts = p.contracts ++ cs)
    (hnames : q.byName = Contract.enterNames p.byName cs) : q.Indexed := by
  rw [Indexed, hnames, hcontracts, Contract.enterNames_append, hp]

theorem of_labels (hp : p.Indexed) {q : Program} (hnames : q.byName = p.byName)
    (hq : q.contracts.map Contract.label = p.contracts.map Contract.label) : q.Indexed := by
  rw [Indexed, hnames, hp, Contract.enterNames_congr hq]

theorem analyze (hp : p.Indexed) (settings : Settings) : (p.analyze settings).Indexed :=
  hp.of_labels rfl (p.labels_analyze settings)

end Indexed

theorem Built.numbered {p : Program} (hp : Built p) : p.Numbered := by
  induction hp with
  | empty => exact fun _ _ h => nomatch h
  | addFile _ h ih =>
    obtain ⟨-, rfl⟩ := addFile_ok h
    exact ih
  | addImport _ _ ih => exact ih
  | addContract _ c ih => exact ih.append [c] rfl
  | register _ h ih => exact ih.register h
  | classifyCalls _ settings contract index ih =>
    exact ih.of_labels (labels_classifyCalls _ settings contract index)
  | analyze _ settings ih => exact ih.analyze settings

theorem Built.indexed {p : Program} (hp : Built p) : p.Indexed := by
  induction hp with
  | empty => rfl
  | addFile _ h ih =>
    obtain ⟨-, rfl⟩ := addFile_ok h
    exact ih
  | addImport _ _ ih => exact ih
  | addContract _ c ih => exact ih.append [c.numbered _] rfl rfl
  | register _ h ih =>
    obtain ⟨imports, contracts, -, rfl⟩ := register_ok h
    exact ih.append _ rfl rfl
  | classifyCalls _ settings contract index ih =>
    exact ih.of_labels rfl (labels_classifyCalls _ settings contract index)
  | analyze _ settings ih => exact ih.analyze settings

theorem built_of_registerAll {units : List SourceUnit} {q : Program}
    (h : registerAll {} units = .ok q) : q.Built := by
  induction units using List.reverseRecOn generalizing q with
  | nil =>
    cases h
    exact .empty
  | append_singleton units u ih =>
    rw [registerAll_concat] at h
    cases hr : registerAll {} units with
    | error e => rw [hr] at h; cases h
    | ok r =>
      rw [hr] at h
      change (r.register u).map Prod.snd = .ok q at h
      cases hregister : r.register u with
      | error e => rw [hregister] at h; cases h
      | ok found =>
        rw [hregister] at h
        cases h
        exact (ih hr).register hregister

/-! ### Contracts by name -/

section Names
variable {p : Program}

theorem mem_of_contractNamed? {name : String} {c : Contract} (h : p.contractNamed? name = some c) :
    c ∈ p.contracts := by
  obtain ⟨i, -, hc⟩ := Option.bind_eq_some_iff.1 h
  exact List.mem_of_getElem? hc

theorem contractsNamed_eq_filter (hp : p.Numbered) (hi : p.Indexed) (name : String) :
    p.contractsNamed name = p.contracts.filter (·.name == name) := by
  have hfound : ∀ c ∈ p.contracts.filter (·.name == name), p.contract? c.id = some c := fun c hc =>
    hp.contract?_id (List.mem_filter.1 hc).1
  rw [contractsNamed, hi, Contract.lookup_enterNames, List.lookup_nil, Option.getD_none,
    List.nil_append, List.filterMap_map]
  exact (List.filterMap_congr hfound).trans List.filterMap_some

theorem contractNamed?_eq_find? (hp : p.Numbered) (hi : p.Indexed) (name : String) :
    p.contractNamed? name = p.contracts.find? (·.name == name) := by
  have hfirst : (p.byName.lookup name).bind List.head? =
      (p.contracts.find? (·.name == name)).map Contract.id := by
    have hids := Contract.lookup_enterNames [] p.contracts name
    rw [← hi, List.lookup_nil, Option.getD_none, List.nil_append] at hids
    rw [← List.head?_filter, ← List.head?_map, ← hids]
    cases p.byName.lookup name <;> rfl
  rw [contractNamed?, hfirst]
  cases hc : p.contracts.find? (·.name == name) with
  | none => rfl
  | some c => exact hp.contract?_id (List.mem_of_find?_eq_some hc)

theorem name_of_contractNamed? (hp : p.Numbered) (hi : p.Indexed) {name : String} {c : Contract}
    (h : p.contractNamed? name = some c) : c.name = name := by
  rw [contractNamed?_eq_find? hp hi] at h
  simpa using List.find?_some h

end Names

/-! ### Inheritance -/

section Inheritance
variable {p : Program} {i j : Nat}

theorem exists_of_mem_baseIds (h : j ∈ p.baseIds i) : ∃ c ∈ p.contracts, c.id = j := by
  rw [baseIds] at h
  split at h
  · obtain ⟨name, -, hj⟩ := List.mem_filterMap.1 h
    obtain ⟨d, hd, he⟩ := Option.map_eq_some_iff.1 hj
    exact ⟨d, mem_of_contractNamed? hd, he⟩
  · cases h

theorem lt_of_mem_baseIds (hp : p.Numbered) (h : j ∈ p.baseIds i) : j < p.contracts.length := by
  obtain ⟨d, hd, rfl⟩ := exists_of_mem_baseIds h
  exact (List.getElem?_eq_some_iff.1 (hp.contract?_id hd)).1

private theorem baseIds_subset (p : Program) :
    ∀ i, ∀ j ∈ p.baseIds i, j ∈ p.contracts.map Contract.id :=
  fun _ _ h => List.mem_map.2 (exists_of_mem_baseIds h)

/-- The queue of the search for ancestors runs empty, and then it has found what the search by
levels finds in as many steps as there are contracts. -/
theorem exists_run_baseIds (p : Program) (id : Nat) :
    ∃ seen, (Reach.Queue.start id).run p.baseIds (p.contracts.length + 1) =
      ⟨seen, Reach.levels p.baseIds p.contracts.length [id] [id], []⟩ := by
  have hleft := List.length_filter_le (fun i => !([id] : List Nat).contains i)
    (p.contracts.map Contract.id)
  rw [List.length_map] at hleft
  refine Reach.Queue.exists_run_eq p.baseIds_subset hleft ?_
  rw [List.length_singleton, Nat.add_comm]
  exact Nat.add_le_add_right hleft 1

theorem ancestors_eq_levels (p : Program) (id : Nat) :
    p.ancestors id = Reach.levels p.baseIds p.contracts.length [id] [id] := by
  obtain ⟨seen, hrun⟩ := p.exists_run_baseIds id
  rw [ancestors, hrun]

/-- The ancestors of a contract are the other contracts that lead on from it by direct bases. -/
theorem mem_ancestors_iff :
    j ∈ p.ancestors i ↔ j ≠ i ∧ Relation.TransGen (fun a b => b ∈ p.baseIds a) i j := by
  rw [ancestors_eq_levels]
  exact Reach.mem_levels_iff _ p.baseIds_subset (Nat.le_of_eq (List.length_map _))

end Inheritance

end ContractAtlas.Program
