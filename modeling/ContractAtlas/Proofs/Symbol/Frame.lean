import ContractAtlas.Proofs.Call.Outline
import ContractAtlas.Proofs.Reach
import ContractAtlas.Proofs.Symbol.Cap
import ContractAtlas.Symbol.Reference

/-! What the search for symbols reads of a program: neither the classifications of its calls nor the
summaries of its functions. -/
namespace ContractAtlas

variable {g : NodeKind → NodeKind} {m : Nat → Nat}

namespace NodeKind

theorem Reclassifies.call_or_eq (hg : Reclassifies g) (k : NodeKind) :
    (∃ site kind, k = .call site ∧ g k = .call { site with kind := kind }) ∨ g k = k := by
  by_cases h : ∃ site, k = .call site
  · obtain ⟨site, rfl⟩ := h
    obtain ⟨kind, hk⟩ := hg.call site
    exact .inl ⟨site, kind, rfl, hk⟩
  · exact .inr (hg.rest k fun site hs => h ⟨site, hs⟩)

theorem Reclassifies.isCompound (hg : Reclassifies g) (k : NodeKind) :
    (g k).isCompound = k.isCompound := by
  rcases hg.call_or_eq k with ⟨site, kind, rfl, hk⟩ | hk
  · rw [hk]; rfl
  · rw [hk]

theorem Reclassifies.isStatement (hg : Reclassifies g) (k : NodeKind) :
    (g k).isStatement = k.isStatement := by
  rcases hg.call_or_eq k with ⟨site, kind, rfl, hk⟩ | hk
  · rw [hk]; rfl
  · rw [hk]

theorem name_unclassified (k : NodeKind) : k.unclassified.name = k.name := by
  cases k <;> rfl

end NodeKind

namespace Node

theorem relabel_span (n : Node) : (n.relabel g m).span = n.span.renumber m := by
  cases n; rfl

private theorem candidatesIn_relabel (hg : NodeKind.Reclassifies g) {ns : List Node}
    (hns : ∀ c ∈ ns, (c.relabel g m).candidates = c.candidates.map (relabel g m)) :
    candidatesIn (ns.map (relabel g m)) = (candidatesIn ns).map (relabel g m) := by
  induction ns with
  | nil => rfl
  | cons c cs ih =>
    have hrest := ih fun d hd => hns d (List.mem_cons_of_mem _ hd)
    have hstatement : (c.relabel g m).isStatement = c.isStatement := by
      rw [Node.isStatement, relabel_kind, hg.isStatement, Node.isStatement]
    rw [List.map_cons, candidatesIn, candidatesIn, hrest, hstatement, hns c List.mem_cons_self,
      List.map_append]
    split <;> rfl

/-- Usages are looked for in the same places whatever the calls are classified as. -/
theorem candidates_relabel (hg : NodeKind.Reclassifies g) (n : Node) :
    (n.relabel g m).candidates = n.candidates.map (relabel g m) := by
  induction n with
  | node kind span excerpt children ih =>
    rw [relabel_mk, candidates, candidates, hg.isCompound, candidatesIn_relabel hg ih]
    split
    · rfl
    · rw [List.map_singleton, relabel_mk]

end Node

namespace Contract

theorem candidates_relabel (hg : NodeKind.Reclassifies g) (c : Contract) :
    (c.relabel g m).candidates = c.candidates.map fun x => (x.1, x.2.relabel g m) := by
  have hbody : ∀ body : Option Node, ((body.map (Node.relabel g m)).map Node.candidates).getD [] =
      ((body.map Node.candidates).getD []).map (Node.relabel g m) := by
    rintro (_ | body)
    · rfl
    · exact Node.candidates_relabel hg body
  simp only [candidates, relabel, Function.relabel, Modifier.relabel, List.map_append, List.map_map,
    List.flatMap_append, List.flatMap_map, List.map_flatMap, List.filterMap_map, Function.comp_def,
    StateVariable.relabel, hbody, List.map_filterMap]
  simp only [Option.map_map, Function.comp_def]

theorem candidates_numbered (c : Contract) (id : Nat) :
    (c.numbered id).candidates = c.candidates := by
  simp only [candidates, numbered, List.map_map, Function.comp_def]

theorem candidates_unanalysed (c : Contract) :
    c.unanalysed.candidates = c.candidates.map fun x => (x.1, x.2.unclassified) := by
  refine Eq.trans ?_ (candidates_relabel (m := fun i => i) NodeKind.reclassifies_unclassified c)
  simp only [candidates, unanalysed, relabel, Function.unanalysed, Function.relabel,
    Modifier.relabel, StateVariable.relabel, List.map_map, Function.comp_def, List.filterMap_map]
  rfl

end Contract

namespace Declaration

/-- The declaration as it was before any analysis. -/
def unanalysed (d : Declaration) : Declaration :=
  { d with contract := d.contract.unanalysed, function := d.function.map Function.unanalysed }

theorem toDefinition_unanalysed (d : Declaration) (kind : SymbolKind) (role : DefinitionRole) :
    d.unanalysed.toDefinition kind role = d.toDefinition kind role := by
  simp only [toDefinition, unanalysed, Option.map_map]
  rfl

end Declaration

theorem Contract.declarations_unanalysed (c : Contract) (kind : SymbolKind) :
    c.unanalysed.declarations kind = (c.declarations kind).map Declaration.unanalysed := by
  cases kind <;> simp only [declarations, List.map_map, List.map_singleton] <;>
    simp only [unanalysed, List.map_map] <;> rfl

namespace Program

theorem declarationsOf_unanalysed (p : Program) (q : QualifiedName) (kind : SymbolKind) :
    p.unanalysed.declarationsOf q kind = (p.declarationsOf q kind).map Declaration.unanalysed := by
  rw [declarationsOf, declarationsOf, unanalysed, List.filter_map, List.flatMap_map,
    List.map_flatMap]
  simp only [Contract.declarations_unanalysed, List.filter_map]
  rfl

theorem inheritsFrom_unanalysed (p : Program) (id ancestor : Nat) :
    p.unanalysed.inheritsFrom id ancestor = p.inheritsFrom id ancestor := by
  rw [inheritsFrom, inheritsFrom, ← ancestors_outline, outline_unanalysed, ancestors_outline]

theorem roleOf_unanalysed (p : Program) (kind : SymbolKind) (primary d : Declaration) :
    p.unanalysed.roleOf kind primary.unanalysed d.unanalysed = p.roleOf kind primary d := by
  simp only [roleOf, inheritsFrom_unanalysed]
  rfl

theorem usageIn?_unanalysed (p : Program) (settings : Settings) (name : String) (kind : SymbolKind)
    (c : Contract) (scope : Option String) (n : Node) :
    p.unanalysed.usageIn? settings name kind c.unanalysed scope n.unclassified =
      p.usageIn? settings name kind c scope n := by
  have htext : n.unclassified.text = n.text := Node.relabel_text n
  have hspan : n.unclassified.span = n.span := Node.relabel_span n
  have hname : n.unclassified.kind.name = n.kind.name := by
    rw [Node.unclassified, Node.relabel_kind, NodeKind.name_unclassified]
  simp only [usageIn?, usageContext, htext, hspan, hname]
  rfl

section Search
variable [SearchEngine]

/-- Definitions do not depend on what analyses have left in the program. -/
theorem definitionsWithin_unanalysed (p : Program) (filters : Filters) (target : String)
    (kind : SymbolKind) :
    p.unanalysed.definitionsWithin filters target kind =
      p.definitionsWithin filters target kind := by
  rw [definitionsWithin, definitionsWithin]
  cases QualifiedName.ofText? target.toList with
  | none => rfl
  | some q =>
    have haccepts : (fun d : Declaration => filters.accepts d.contract d.span.path) ∘
        Declaration.unanalysed = fun d => filters.accepts d.contract d.span.path := rfl
    simp only [declarationsOf_unanalysed, List.filter_map, haccepts]
    cases (p.declarationsOf q kind).filter fun d => filters.accepts d.contract d.span.path with
    | nil => rfl
    | cons primary rest =>
      simp only [List.map_cons, List.map_map, Function.comp_def, roleOf_unanalysed,
        Declaration.toDefinition_unanalysed]

theorem usagesOf_unanalysed (p : Program) (settings : Settings) (kind : SymbolKind)
    (direction : Direction) (filters : Filters) (anchor : Declaration) :
    p.unanalysed.usagesOf settings kind direction filters anchor.unanalysed =
      p.usagesOf settings kind direction filters anchor := by
  have hcontracts : p.unanalysed.contracts = p.contracts.map Contract.unanalysed := rfl
  have haccepts : (fun c => filters.accepts c (p.unanalysed.pathOf c)) ∘ Contract.unanalysed =
      fun c => filters.accepts c (p.pathOf c) := rfl
  have hspan : ∀ n : Node, n.unclassified.span = n.span := Node.relabel_span
  rw [usagesOf, usagesOf, hcontracts, List.filter_map, haccepts, List.flatMap_map]
  refine congrArg (List.flatMap · _) (funext fun c => ?_)
  rw [Contract.candidates_unanalysed, List.filter_map, List.filterMap_map]
  simp only [Function.comp_def, hspan, usageIn?_unanalysed]
  rfl

/-- Nor do usages. -/
theorem usages_unanalysed (p : Program) (settings : Settings) (target : String) (kind : SymbolKind)
    (direction : Direction) (filters : Filters) :
    p.unanalysed.usages settings target kind direction filters =
      p.usages settings target kind direction filters := by
  rw [usages_eq, usages_eq]
  refine congrArg (Except.map _) ?_
  rw [allUsages, allUsages]
  cases QualifiedName.ofText? target.toList with
  | none => rfl
  | some q =>
    simp only [declarationsOf_unanalysed]
    cases p.declarationsOf q kind with
    | nil => rfl
    | cons anchor rest => simp only [List.map_cons, usagesOf_unanalysed]

end Search

end Program

namespace Function

theorem calledNames_unanalysed (f : Function) : f.unanalysed.calledNames = f.calledNames := by
  rw [calledNames, calledNames, unanalysed, Option.map_map]
  exact congrArg (fun names => (f.body.map names).getD [])
    (funext fun n => Node.calledNames_relabel NodeKind.reclassifies_unclassified n)

theorem callees_unanalysed (all : List Function) (f : Function) :
    callees (all.map unanalysed) f.unanalysed = (callees all f).map unanalysed := by
  rw [callees, callees, calledNames_unanalysed, List.map_filterMap]
  refine congrArg (fun callee => f.calledNames.filterMap callee) (funext fun name => ?_)
  rw [List.find?_map]
  rfl

end Function

/-- Chains of calls are found by name. -/
theorem CallChains.extend_unanalysed (all : List Function) (left : Nat) (f : Function)
    (path : List String) :
    extend (all.map Function.unanalysed) left f.unanalysed path = extend all left f path := by
  induction left generalizing f path with
  | zero => rfl
  | succ left ih =>
    have hcallees : Reach.fresh Function.name []
      (f.unanalysed.callees (all.map Function.unanalysed)) =
        (Reach.fresh Function.name [] (f.callees all)).map Function.unanalysed := by
      rw [f.callees_unanalysed, Reach.fresh_map]
      rfl
    rw [extend, extend, hcallees]
    cases Reach.fresh Function.name [] (f.callees all) with
    | nil => rfl
    | cons g gs =>
      change (((g :: gs).map Function.unanalysed).filter fun h => !path.contains h.name).foldl
        (fun (done : CallChains) h => done.append (extend _ left h (path ++ [h.name]))) {} = _
      rw [List.filter_map, List.foldl_map]
      simp only [ih]
      rfl

namespace Program

theorem functions_unanalysed (p : Program) :
    p.unanalysed.functions = p.functions.map Function.unanalysed := by
  rw [functions, functions, unanalysed, List.flatMap_map, List.map_flatMap]
  rfl

theorem callChains_unanalysed (p : Program) (target : String) (maxDepth : Nat) :
    p.unanalysed.callChains target maxDepth = p.callChains target maxDepth := by
  rw [callChains, callChains]
  cases QualifiedName.ofText? target.toList with
  | none => rfl
  | some q =>
    have hfunction : (p.unanalysed.declarationsOf q .function).findSome? Declaration.function =
        ((p.declarationsOf q .function).findSome? Declaration.function).map
          Function.unanalysed := by
      rw [declarationsOf_unanalysed, List.findSome?_map, List.map_findSome?]
      rfl
    simp only [hfunction, functions_unanalysed]
    cases (p.declarationsOf q .function).findSome? Declaration.function with
    | none => rfl
    | some f =>
      simp only [Option.map_some, CallChains.extend_unanalysed]
      rfl

theorem resolve?_unanalysed (p : Program) (target : String) (kind : SymbolKind) :
    p.unanalysed.resolve? target kind = p.resolve? target kind := by
  have hdeclares : p.unanalysed.declares = p.declares := by
    funext target kind
    simp only [declares, declarationsOf_unanalysed, List.isEmpty_map]
  rw [resolve?, resolve?, hdeclares]

/-- Nor do reports. -/
theorem references_unanalysed [SearchEngine] (p : Program) (settings : Settings)
    (query : ReferenceQuery) :
    p.unanalysed.references settings query = p.references settings query := by
  simp only [references, resolve?_unanalysed, definitionsWithin_unanalysed, usages_unanalysed,
    callChains_unanalysed]

end Program

end ContractAtlas
