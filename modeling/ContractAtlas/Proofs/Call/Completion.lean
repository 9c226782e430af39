import ContractAtlas.Proofs.Call.Classification
import ContractAtlas.Proofs.Call.Outline
import Mathlib.Data.List.Forall2

/-! One analysis completes a program: calls without a record get one, records that are there stay,
and nothing else is written but the summaries of functions. After that there is nothing left to
do. -/
namespace ContractAtlas

variable {settings : Settings} {s : Scope}

namespace NodeKind

/-- The second kind is the first with an empty record of a call filled in. -/
inductive Completes : NodeKind → NodeKind → Prop
  | filled (site : CallSite) (found : CallKind) (h : site.kind = none) :
      Completes (.call site) (.call { site with kind := some found })
  | kept (site : CallSite) (found : CallKind) (h : site.kind = some found) :
      Completes (.call site) (.call site)
  | rest (k : NodeKind) (h : ∀ site, k ≠ .call site) : Completes k k

theorem completes_classified (e : Option Text) (source : Text) (k : NodeKind) :
    k.Completes (k.classified settings s e source) := by
  cases k with
  | call site =>
    rcases site with ⟨callee, options, _ | found⟩
    · exact .filled _ _ rfl
    · exact .kept _ found rfl
  | _ => exact .rest _ fun _ => NodeKind.noConfusion

end NodeKind

namespace Node

/-- The second tree is the first with the empty records of its calls filled in. -/
inductive Completes : Node → Node → Prop
  | node {kind kind' : NodeKind} {children children' : List Node} (span : Span) (excerpt : Excerpt)
      (hkind : kind.Completes kind') (hchildren : List.Forall₂ Completes children children') :
      Completes ⟨kind, span, excerpt, children⟩ ⟨kind', span, excerpt, children'⟩

theorem forall₂_overSiblings {β : Type} {R : Node → β → Prop} {F : Option Text → Node → β}
    {ns : List Node} (h : ∀ c ∈ ns, ∀ e, R c (F e c)) (e : Option Text) :
    List.Forall₂ R ns (overSiblings F e ns) := by
  cases ns with
  | nil => exact .nil
  | cons c cs =>
    refine .cons (h c List.mem_cons_self e) (List.forall₂_map_right_iff.2 ?_)
    exact List.forall₂_same.2 fun d hd => h d (List.mem_cons_of_mem _ hd) none

theorem completes_classifyCalls (n : Node) (e : Option Text) :
    n.Completes (classifyCalls settings s e n) := by
  induction n generalizing e with
  | node kind span excerpt children ih =>
    rw [classifyCalls_mk]
    exact .node span excerpt (kind.completes_classified e _) (forall₂_overSiblings ih _)

/-- No call is passed over. -/
theorem isSome_callKind?_classifyCalls (n : Node) {c : Node}
    (hc : c ∈ (classifyCalls settings s none n).calls) : c.callKind?.isSome = true := by
  rw [calls_eq] at hc
  obtain ⟨v, hv, rfl⟩ := List.mem_map.1 hc
  obtain ⟨hv, hcall⟩ := List.mem_filter.1 hv
  have hkind : v.node.kind ∈ (classifyCalls settings s none n).walk.map fun v => v.node.kind :=
    List.mem_map_of_mem hv
  rw [kinds_walk] at hkind
  obtain ⟨w, -, hw⟩ := List.mem_map.1 hkind
  rw [isCall, callSite?, ← hw] at hcall
  rw [callKind?, callSite?, ← hw]
  cases hk : w.node.kind with
  | call site => rfl
  | _ =>
    rw [hk] at hcall
    cases hcall

end Node

namespace Function

/-- The second function is the first with its calls completed and some summary. -/
def Completes (f f' : Function) : Prop :=
  ∃ body summary, f' = { f with body := body, summary := summary } ∧
    Option.Rel Node.Completes f.body body

end Function

private theorem rel_map_classifyCalls (o : Option Node) :
    Option.Rel Node.Completes o (o.map (Node.classifyCalls settings s none)) := by
  cases o with
  | none => exact .none
  | some n => exact .some (n.completes_classifyCalls none)

namespace Function

theorem completes_analyze (f : Function) : f.Completes (f.analyze settings s) :=
  ⟨_, _, rfl, rel_map_classifyCalls f.body⟩

/-- A second analysis in the same scope reads the same locals and the same calls. -/
theorem analyze_analyze (f : Function) :
    (f.analyze settings s).analyze settings s = f.analyze settings s := by
  have hscope : s.within (f.analyze settings s) = s.within f := by
    rw [← within_unanalysed, unanalysed_analyze, within_unanalysed]
  have hsummary : (f.analyze settings s).summarize settings (s.within f) =
      f.summarize settings (s.within f) := by
    rw [← summarize_unanalysed, unanalysed_analyze, summarize_unanalysed]
  have hbody : (f.analyze settings s).body.map (Node.classifyCalls settings (s.within f) none) =
      (f.analyze settings s).body := by
    simp only [analyze, classifyCalls, Option.map_map, Function.comp_def,
      Node.classifyCalls_classifyCalls]
  rw [analyze, classifyCalls, hscope, hsummary, hbody]
  rfl

end Function

namespace Contract

/-- The second contract is the first with its functions, modifiers and initialisers completed. -/
def Completes (c c' : Contract) : Prop :=
  ∃ functions modifiers stateVariables,
    c' = { c with functions, modifiers, stateVariables } ∧
    List.Forall₂ Function.Completes c.functions functions ∧
    List.Forall₂ (fun m m' => ∃ body, m' = { m with body := body } ∧
      Option.Rel Node.Completes m.body body) c.modifiers modifiers ∧
    List.Forall₂ (fun v v' => ∃ initializer, v' = { v with initializer := initializer } ∧
      Option.Rel Node.Completes v.initializer initializer) c.stateVariables stateVariables

theorem completes_analyze (c : Contract) : c.Completes (c.analyze settings s) := by
  refine ⟨_, _, _, rfl, ?_, ?_, ?_⟩
  · refine List.forall₂_map_right_iff.2 (List.forall₂_same.2 fun f _ => ?_)
    exact f.completes_analyze
  · refine List.forall₂_map_right_iff.2 (List.forall₂_same.2 fun m _ => ?_)
    exact ⟨_, rfl, rel_map_classifyCalls m.body⟩
  · refine List.forall₂_map_right_iff.2 (List.forall₂_same.2 fun v _ => ?_)
    exact ⟨_, rfl, rel_map_classifyCalls v.initializer⟩

theorem isSome_callKind?_analyze (c : Contract) {t : (Scope → Scope) × Node}
    (ht : t ∈ (c.analyze settings s).trees) {n : Node} (hn : n ∈ t.2.calls) :
    n.callKind?.isSome = true := by
  rw [trees_analyze] at ht
  obtain ⟨t₀, -, rfl⟩ := List.mem_map.1 ht
  exact t₀.2.isSome_callKind?_classifyCalls hn

theorem analyze_analyze (c : Contract) :
    (c.analyze settings s).analyze settings s = c.analyze settings s := by
  simp only [analyze, List.map_map, Function.comp_def, Function.analyze_analyze, Option.map_map,
    Node.classifyCalls_classifyCalls]

end Contract

namespace Program

/-- The second program is the first with its contracts completed. -/
def Completes (p p' : Program) : Prop :=
  ∃ contracts, p' = { p with contracts := contracts } ∧
    List.Forall₂ Contract.Completes p.contracts contracts

theorem completes_analyze (p : Program) : p.Completes (p.analyze settings) := by
  refine ⟨_, rfl, List.forall₂_map_right_iff.2 (List.forall₂_same.2 fun c _ => ?_)⟩
  exact c.completes_analyze

/-- What an analysis writes is not what scopes are made of. -/
theorem analyze_analyze (p : Program) :
    (p.analyze settings).analyze settings = p.analyze settings := by
  have hscope : ∀ id, Scope.ofContract (p.analyze settings) id = Scope.ofContract p id :=
    Scope.ofContract_unanalysed_congr (unanalysed_analyze p)
  have hcontract : ∀ c : Contract,
      (c.analyze settings (Scope.ofContract p c.id)).analyze settings
          (Scope.ofContract (p.analyze settings) c.id) =
        c.analyze settings (Scope.ofContract p c.id) := by
    intro c
    rw [hscope, Contract.analyze_analyze]
  have hcontracts : ((p.analyze settings).analyze settings).contracts =
      (p.analyze settings).contracts := by
    refine List.map_map.trans (List.map_congr_left fun c _ => ?_)
    exact hcontract c
  exact congrArg (fun contracts => { p with contracts := contracts }) hcontracts

/-- An analysis leaves no call of a body or an initialiser without a kind, keeps the kinds that are
there, writes nothing else but summaries, and has nothing to add when it is repeated. -/
theorem analyze_completion (p : Program) (settings : Settings) :
    (∀ c ∈ (p.analyze settings).contracts, ∀ t ∈ c.trees, ∀ n ∈ t.2.calls,
      n.callKind?.isSome = true) ∧
      p.Completes (p.analyze settings) ∧
      (p.analyze settings).analyze settings = p.analyze settings := by
  refine ⟨fun c hc t ht n hn => ?_, p.completes_analyze, p.analyze_analyze⟩
  obtain ⟨c₀, -, rfl⟩ := List.mem_map.1 hc
  exact c₀.isSome_callKind?_analyze ht hn

end Program

end ContractAtlas
