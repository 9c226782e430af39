import ContractAtlas.Proofs.Call.Classification
import ContractAtlas.Proofs.Program.Names

/-! One analysis after files were loaded in another order: the scopes are the same but for the
numbers of their contracts, and so is all that the analysis records. -/
namespace ContractAtlas

variable {settings : Settings} {s : Scope}

namespace Scope

theorem assemble_unplaced (id : Nat) (c : Contract) (ancestors libraries : List Contract) :
    assemble id c.unplaced (ancestors.map Contract.unplaced) (libraries.map Contract.unplaced) =
      assemble id c ancestors libraries := by
  simp only [assemble, visibilitiesOf, Contract.unplaced, Contract.numbered, Contract.relabel,
    Function.relabel, StateVariable.relabel, List.flatMap_map, List.map_flatMap, List.map_map,
    List.filter_map, Function.comp_def]

/-- Libraries count only as sets of names. -/
theorem assemble_perm (id : Nat) (c : Contract) (ancestors : List Contract)
    {libraries libraries' : List Contract} (h : libraries.Perm libraries') :
    assemble id c ancestors libraries = assemble id c ancestors libraries' := by
  have hset : ∀ {xs ys : List String}, xs.Perm ys → NameSet.ofList xs = NameSet.ofList ys := by
    intro xs ys hperm
    apply NameSet.eq_of_contains
    intro name
    rw [NameSet.contains_ofList, NameSet.contains_ofList, hperm.contains_eq]
  have hnames := hset (h.map Contract.name)
  have hfunctions := fun attached : NameSet => hset
    (((h.filter fun l => attached.contains l.name).flatMap_right Contract.functions).map
      Function.name)
  simp only [assemble, hnames, hfunctions]

end Scope

namespace Program.Reordered
variable {p q : Program} (h : Reordered p q)
include h

/-- In two orders the contract of a name has the same scope, its number apart. -/
theorem ofContract {c d : Contract} (hc : c ∈ p.contracts) (hd : d ∈ q.contracts)
    (hcd : d.unplaced = c.unplaced) :
    Scope.ofContract q d.id = { Scope.ofContract p c.id with contract := d.id } := by
  have hc' := h.built.numbered.contract?_id hc
  have hd' := h.built'.numbered.contract?_id hd
  have hname := congrArg Contract.name hcd
  change d.name = c.name at hname
  have hancestors : ((q.ancestors d.id).filterMap q.contract?).map Contract.unplaced =
      ((p.ancestors c.id).filterMap p.contract?).map Contract.unplaced := by
    rw [filterMap_ancestors h.distinct' h.built' (List.getElem?_eq_some_iff.1 hd').1,
      filterMap_ancestors h.distinct h.built (List.getElem?_eq_some_iff.1 hc').1,
      nameOf_id h.built'.numbered hd, nameOf_id h.built.numbered hc, hname, h.ancestorNames,
      List.map_filterMap, List.map_filterMap]
    exact congrArg (List.filterMap · _) (funext h.contractNamed?)
  have hlibraries : ((q.contracts.filter Contract.isLibrary).map Contract.unplaced).Perm
      ((p.contracts.filter Contract.isLibrary).map Contract.unplaced) := by
    have hfilter := (h.perm.filter Contract.isLibrary).symm
    rw [List.filter_map, List.filter_map] at hfilter
    exact hfilter
  rw [Scope.ofContract_of_some hd', Scope.ofContract_of_some hc', ← Scope.assemble_unplaced, hcd,
    hancestors, Scope.assemble_perm _ _ _ hlibraries, Scope.assemble_unplaced]
  rfl

end Program.Reordered

namespace Function

theorem analyze_placed (i : Nat) :
    analyze settings { s with contract := i } = analyze settings s := by
  funext f
  have hclassify : Node.classifyCalls settings { s.within f with contract := i } =
    Node.classifyCalls settings (s.within f) := Node.classifyCalls_placed i
  exact congrArg (fun classify => { f with
    body := f.body.map (classify none), summary := f.summarize settings (s.within f) }) hclassify

theorem relabel_analyze (m : Nat → Nat) :
    relabel (fun k => k) m ∘ analyze settings s = analyze settings s ∘ relabel (fun k => k) m := by
  funext f
  rw [Function.comp_apply, Function.comp_apply, analyze, analyze, classifyCalls, classifyCalls,
    within_relabel NodeKind.reclassifies_id, summarize_relabel NodeKind.reclassifies_id]
  simp only [relabel, Option.map_map, Node.relabel_classifyCalls]

end Function

namespace Contract

theorem analyze_placed (c : Contract) (i : Nat) :
    c.analyze settings { s with contract := i } = c.analyze settings s := by
  simp only [analyze, Function.analyze_placed, Node.classifyCalls_placed]

/-- An analysis reads no number of a file or a contract. -/
theorem unplaced_analyze (c : Contract) :
    (c.analyze settings s).unplaced = c.unplaced.analyze settings s := by
  have hrelabel : (c.analyze settings s).relabel (fun k => k) (fun _ => 0) =
      (c.relabel (fun k => k) fun _ => 0).analyze settings s := by
    have hnode : ∀ o : Option Node, (o.map (Node.classifyCalls settings s none)).map
        (Node.relabel (fun k => k) fun _ => 0) =
          (o.map (Node.relabel (fun k => k) fun _ => 0)).map
            (Node.classifyCalls settings s none) := by
      intro o
      rw [Option.map_map, Node.relabel_classifyCalls, Option.map_map]
    simp only [analyze, relabel, List.map_map, Function.relabel_analyze]
    simp only [Function.comp_def, Modifier.relabel, StateVariable.relabel, hnode]
  rw [unplaced, unplaced, hrelabel]
  simp only [analyze, numbered, List.map_map]
  rfl

/-- What an analysis has found in a contract: the summary of every function and the kind of every
call. -/
def findings (c : Contract) : List (String × CallSummary) × List (List (Option CallKind)) :=
  (c.functions.map fun f => (f.name, f.summary), c.callKinds)

theorem findings_unplaced (c : Contract) : c.unplaced.findings = c.findings := by
  have hnode : ∀ n : Node, (n.relabel (fun k => k) fun _ => 0).callKinds = n.callKinds := by
    intro n
    rw [Node.callKinds_eq, Node.callKinds_eq, Node.walk_relabel, List.map_map]
    exact congrArg (List.filterMap _) (List.map_congr_left fun v _ => v.node.relabel_kind)
  simp only [findings, callKinds, trees, unplaced, numbered, relabel, Function.relabel,
    Modifier.relabel, StateVariable.relabel, List.map_append, List.map_map, List.map_filterMap,
    List.filterMap_map, Option.map_map, Function.comp_def, hnode]

end Contract

namespace Program

theorem contractNamed?_analyze (p : Program) (name : String) :
    (p.analyze settings).contractNamed? name =
      (p.contractNamed? name).map fun c => c.analyze settings (Scope.ofContract p c.id) :=
  @contractNamed?_map p (p.analyze settings) _ rfl rfl name

theorem Reordered.unplaced_analyze {p q : Program} (h : Reordered p q) {c d : Contract}
    (hc : c ∈ p.contracts) (hd : d ∈ q.contracts) (hcd : d.unplaced = c.unplaced) :
    (d.analyze settings (Scope.ofContract q d.id)).unplaced =
      (c.analyze settings (Scope.ofContract p c.id)).unplaced := by
  rw [Contract.unplaced_analyze, Contract.unplaced_analyze, hcd, h.ofContract hc hd hcd]
  exact Contract.analyze_placed c.unplaced d.id

/-- In two orders an analysis leaves the same contracts, their places apart. -/
theorem Reordered.analyze {p q : Program} (h : Reordered p q) (settings : Settings)
    (name : String) :
    ((q.analyze settings).contractNamed? name).map Contract.unplaced =
      ((p.analyze settings).contractNamed? name).map Contract.unplaced := by
  have hname := h.contractNamed? name
  rw [contractNamed?_analyze, contractNamed?_analyze]
  cases hc : p.contractNamed? name with
  | none =>
    rw [hc, Option.map_none, Option.map_eq_none_iff] at hname
    simp only [hname, Option.map_none]
  | some c =>
    rw [hc, Option.map_some] at hname
    obtain ⟨d, hd, hcd⟩ := Option.map_eq_some_iff.1 hname
    rw [hd]
    exact congrArg some
      (h.unplaced_analyze (mem_of_contractNamed? hc) (mem_of_contractNamed? hd) hcd)

/-- The order in which files with distinct names of contracts are loaded does not matter to what one
analysis at the end finds in the contract of a name. -/
theorem findings_analyze_perm {units units' : List SourceUnit} {q : Program} (settings : Settings)
    (hq : registerAll {} units = .ok q) (hnames : (q.contracts.map Contract.name).Nodup)
    (hperm : units.Perm units') :
    ∃ q', registerAll {} units' = .ok q' ∧ ∀ name,
      ((q'.analyze settings).contractNamed? name).map Contract.findings =
        ((q.analyze settings).contractNamed? name).map Contract.findings := by
  obtain ⟨q', hq', hcontents⟩ := registerAll_perm hperm hq
  have h : Reordered q q' :=
    ⟨built_of_registerAll hq, built_of_registerAll hq', hnames, hcontents⟩
  refine ⟨q', hq', fun name => ?_⟩
  have hfindings : Contract.findings ∘ Contract.unplaced = Contract.findings :=
    funext Contract.findings_unplaced
  have hsame := congrArg (Option.map Contract.findings) (h.analyze settings name)
  rwa [Option.map_map, Option.map_map, hfindings] at hsame

theorem findings_analyze_perm_sample :
    ∃ q q', registerAll {} [Sample.derived, Sample.base] = .ok q ∧
      (q.contracts.map Contract.name).Nodup ∧
      registerAll {} [Sample.base, Sample.derived] = .ok q' ∧ ∀ name,
        ((q'.analyze {}).contractNamed? name).map Contract.findings =
          ((q.analyze {}).contractNamed? name).map Contract.findings := by
  have hrun : ∃ q ∈ (registerAll {} [Sample.derived, Sample.base]).toOption,
      q.contracts.map Contract.name = ["Ok2", "Ok"] := by decide +kernel
  obtain ⟨q, hq, hlist⟩ := hrun
  have hregister := Sample.eq_ok_of_mem_toOption hq
  have hnames : (q.contracts.map Contract.name).Nodup := by
    rw [hlist]
    decide
  obtain ⟨q', hq', hsame⟩ :=
    findings_analyze_perm {} hregister hnames (List.Perm.swap Sample.base Sample.derived [])
  exact ⟨q, q', hregister, hnames, hq', hsame⟩

end Program

end ContractAtlas
