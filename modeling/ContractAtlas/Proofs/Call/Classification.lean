import ContractAtlas.Proofs.Call.Frame
import Mathlib.Data.List.Basic

/-! The classifications that an analysis records: which call gets which kind, and that a recorded
kind is never replaced. -/
namespace ContractAtlas

variable {settings : Settings} {s t : Scope}

namespace NodeKind

/-- The record of a call, which may be empty; other nodes have none. -/
def recorded? : NodeKind → Option (Option CallKind)
  | call site => some site.kind
  | _ => none

theorem classified_classified (e e' : Option Text) (source source' : Text) (k : NodeKind) :
    (k.classified settings s e source).classified settings t e' source' =
      k.classified settings s e source := by
  cases k <;> rfl

end NodeKind

namespace Node

/-- The recorded kinds of the calls of a tree, in order. -/
def callKinds (n : Node) : List (Option CallKind) := n.calls.map callKind?

/-- No call of the tree has a recorded kind yet. -/
def Fresh (n : Node) : Prop := ∀ c ∈ n.calls, c.callKind? = none

/-- What a scope says of the calls of a tree, the invocations of emitted events apart. -/
def verdicts (settings : Settings) (s : Scope) (n : Node) : List (Option CallKind) :=
  n.directCalls.map fun c => c.callSite?.map fun site => s.callKind settings site c.text

/-- A second classification changes nothing, in whatever scope it is made. -/
theorem classifyCalls_classifyCalls (n : Node) (e e' : Option Text) :
    classifyCalls settings t e' (classifyCalls settings s e n) = classifyCalls settings s e n := by
  induction n generalizing e e' with
  | node kind span excerpt children ih =>
    have h : ∀ e', overSiblings (classifyCalls settings t) e'
        (overSiblings (classifyCalls settings s) (kind.emitted? excerpt.text) children) =
          overSiblings (classifyCalls settings s) (kind.emitted? excerpt.text) children := by
      intro e'
      cases children with
      | nil => rfl
      | cons c cs =>
        rw [overSiblings, overSiblings, ih c List.mem_cons_self, List.map_map]
        exact congrArg _
          (List.map_congr_left fun d hd => ih d (List.mem_cons_of_mem _ hd) none none)
    rw [classifyCalls_mk, classifyCalls_mk, NodeKind.classified_classified, h]

/-- The text of the emit statement whose event a visited node invokes. -/
def Visit.emitted? (v : Visit) : Option Text := v.emitStatement?.map Node.text

private theorem emitted?_child (c parent : Node) (a : List Node) (i : Nat) :
    (⟨c, a ++ [parent], i⟩ : Visit).emitted? =
      if i = 0 then parent.kind.emitted? parent.text else none := by
  rw [Visit.emitted?, Visit.emitStatement?, List.getLast?_concat]
  cases hk : parent.kind with
  | emit event =>
    simp only [hk]
    split <;> rfl
  | _ => simp only [hk, NodeKind.emitted?, Option.map_none, ite_self]

private theorem kinds_walkAll {ns : List Node} (hns : ∀ c ∈ ns, ∀ a a' i,
      (walkFrom a' i (classifyCalls settings s (⟨c, a, i⟩ : Visit).emitted? c)).map
          (fun v => v.node.kind) =
        (walkFrom a i c).map fun v => v.node.kind.classified settings s v.emitted? v.node.text)
    (a a' : List Node) (parent : Node) (i : Nat) :
    (walkAll a' i (overSiblings (classifyCalls settings s)
        (if i = 0 then parent.kind.emitted? parent.text else none) ns)).map (fun v => v.node.kind) =
      (walkAll (a ++ [parent]) i ns).map fun v =>
        v.node.kind.classified settings s v.emitted? v.node.text := by
  induction ns generalizing i with
  | nil => rfl
  | cons c cs ih =>
    have hhead := hns c List.mem_cons_self (a ++ [parent]) a' i
    have htail := ih (fun d hd => hns d (List.mem_cons_of_mem _ hd)) (i + 1)
    rw [emitted?_child] at hhead
    rw [if_neg (Nat.succ_ne_zero i), overSiblings_none] at htail
    rw [overSiblings, walkAll, walkAll, List.map_append, List.map_append, hhead, htail]

private theorem kinds_walkFrom (n : Node) (a a' : List Node) (i : Nat) :
    (walkFrom a' i (classifyCalls settings s (⟨n, a, i⟩ : Visit).emitted? n)).map
        (fun v => v.node.kind) =
      (walkFrom a i n).map fun v => v.node.kind.classified settings s v.emitted? v.node.text := by
  induction n generalizing a a' i with
  | node kind span excerpt children ih =>
    have h := kinds_walkAll ih a (a' ++ [classifyCalls settings s
      (⟨⟨kind, span, excerpt, children⟩, a, i⟩ : Visit).emitted? ⟨kind, span, excerpt, children⟩])
      ⟨kind, span, excerpt, children⟩ 0
    rw [if_pos rfl] at h
    rw [walkFrom, List.map_cons, ← h, classifyCalls_mk, walkFrom, List.map_cons]
    rfl

/-- A walk through the classified tree meets the kinds that the walk through the tree calls for. -/
theorem kinds_walk (n : Node) :
    (classifyCalls settings s none n).walk.map (fun v => v.node.kind) =
      n.walk.map fun v => v.node.kind.classified settings s v.emitted? v.node.text :=
  kinds_walkFrom n [] [] 0

theorem callKinds_eq (n : Node) :
    n.callKinds = (n.walk.map fun v => v.node.kind).filterMap NodeKind.recorded? := by
  rw [callKinds, calls_eq, List.map_map, ← List.filterMap_eq_map, List.filterMap_filter,
    List.filterMap_map]
  refine congrArg (n.walk.filterMap ·) (funext fun v => ?_)
  rcases v with ⟨⟨kind, _, _, _⟩, _, _⟩
  cases kind <;> rfl

private theorem recorded?_classified (e : Option Text) (n : Node)
    (hn : n.isCall = true → n.callKind? = none) :
    (n.kind.classified settings s e n.text).recorded? =
      if n.isCall = true then
        some (n.callSite?.map fun site => s.verdict settings e site n.text)
      else none := by
  rcases n with ⟨kind, span, excerpt, children⟩
  cases kind with
  | call site =>
    have hkind : site.kind = none := hn rfl
    simp only [NodeKind.classified, NodeKind.recorded?, hkind, Option.getD_none]
    rfl
  | _ => rfl

theorem callKinds_classifyCalls {n : Node} (hn : n.Fresh) :
    (classifyCalls settings s none n).callKinds =
      (n.walk.filter fun v => v.node.isCall).map fun v => v.node.callSite?.map fun site =>
        s.verdict settings v.emitted? site v.node.text := by
  rw [callKinds_eq, kinds_walk, List.filterMap_map, ← List.filterMap_eq_map, List.filterMap_filter]
  apply List.filterMap_congr
  intro v hv
  refine recorded?_classified v.emitted? v.node fun hcall => hn v.node ?_
  rw [calls_eq]
  exact List.mem_map_of_mem (List.mem_filter.2 ⟨hv, hcall⟩)

/-- Two scopes leave the same classifications in a fresh tree exactly when they agree on its
calls. -/
theorem callKinds_classifyCalls_eq_iff {n : Node} (hn : n.Fresh) :
    (classifyCalls settings s none n).callKinds = (classifyCalls settings t none n).callKinds ↔
      n.verdicts settings s = n.verdicts settings t := by
  rw [callKinds_classifyCalls hn, callKinds_classifyCalls hn, List.map_inj_left, verdicts, verdicts,
    directCalls, List.map_map, List.map_map, List.map_inj_left]
  constructor
  · intro h v hv
    obtain ⟨hv, hcall, hemit⟩ := by simpa only [List.mem_filter, Bool.and_eq_true] using hv
    have hsame := h v (List.mem_filter.2 ⟨hv, hcall⟩)
    rw [Visit.emitted?, Option.isNone_iff_eq_none.1 hemit] at hsame
    exact hsame
  · intro h v hv
    obtain ⟨hv, hcall⟩ := List.mem_filter.1 hv
    cases hemit : v.emitStatement? with
    | none =>
      rw [Visit.emitted?, hemit]
      exact h v (List.mem_filter.2 ⟨hv, by rw [hcall, hemit]; rfl⟩)
    | some statement =>
      -- The invocation of an event is told without the scope.
      rw [Visit.emitted?, hemit]
      rfl

theorem fresh_of_relabel {n : Node} {m : Nat → Nat} (h : n.relabel NodeKind.unclassified m = n) :
    n.Fresh := by
  have hwalk : n.walk.map (Visit.relabel NodeKind.unclassified m) = n.walk.map fun v => v := by
    rw [← walk_relabel, h, List.map_id']
  intro c hc
  rw [calls_eq] at hc
  obtain ⟨v, hv, rfl⟩ := List.mem_map.1 hc
  have hnode : v.node.relabel NodeKind.unclassified m = v.node :=
    congrArg Visit.node (List.map_inj_left.1 hwalk v (List.mem_of_mem_filter hv))
  rw [← hnode, callKind?, callSite?, relabel_kind]
  cases v.node.kind <;> rfl

end Node

namespace Contract

/-- The trees of a contract that hold calls, each with the step from the contract's scope to its
own. -/
def trees (c : Contract) : List ((Scope → Scope) × Node) :=
  c.functions.filterMap (fun f => f.body.map fun n => (fun s => s.within f, n)) ++
    c.modifiers.filterMap (fun d => d.body.map fun n => (fun s => s, n)) ++
    c.stateVariables.filterMap fun v => v.initializer.map fun n => (fun s => s, n)

/-- The recorded kinds of all calls, tree by tree. -/
def callKinds (c : Contract) : List (List (Option CallKind)) :=
  c.trees.map fun t => t.2.callKinds

/-- What the contract's scope says of its calls, tree by tree. -/
def verdicts (settings : Settings) (s : Scope) (c : Contract) : List (List (Option CallKind)) :=
  c.trees.map fun t => t.2.verdicts settings (t.1 s)

def Fresh (c : Contract) : Prop := ∀ t ∈ c.trees, t.2.Fresh

theorem trees_analyze (c : Contract) :
    (c.analyze settings s).trees =
      c.trees.map fun t => (t.1, t.2.classifyCalls settings (t.1 s) none) := by
  have hwithin : ∀ (f : Function) (s' : Scope), s'.within (f.analyze settings s) = s'.within f := by
    intro f s'
    rw [← Function.within_unanalysed, Function.unanalysed_analyze, Function.within_unanalysed]
  have hbody : ∀ f : Function, (f.analyze settings s).body =
      f.body.map (Node.classifyCalls settings (s.within f) none) := fun _ => rfl
  simp only [trees, analyze, List.map_append, List.filterMap_map, List.map_filterMap,
    Option.map_map, Function.comp_def, hwithin, hbody]

theorem callKinds_analyze (c : Contract) :
    (c.analyze settings s).callKinds =
      c.trees.map fun t => (t.2.classifyCalls settings (t.1 s) none).callKinds := by
  rw [callKinds, trees_analyze, List.map_map]
  rfl

/-- A second analysis records nothing new. -/
theorem callKinds_analyze_analyze (c : Contract) :
    ((c.analyze settings s).analyze settings t).callKinds = (c.analyze settings s).callKinds := by
  rw [callKinds_analyze, callKinds_analyze, trees_analyze, List.map_map]
  simp only [Function.comp_def, Node.classifyCalls_classifyCalls]

/-- Two scopes leave the same classifications in a fresh contract exactly when they agree on its
calls. -/
theorem callKinds_analyze_eq_iff {c : Contract} (hc : c.Fresh) :
    (c.analyze settings s).callKinds = (c.analyze settings t).callKinds ↔
      c.verdicts settings s = c.verdicts settings t := by
  rw [callKinds_analyze, callKinds_analyze, verdicts, verdicts, List.map_inj_left,
    List.map_inj_left]
  exact forall₂_congr fun n hn => Node.callKinds_classifyCalls_eq_iff (hc n hn)

theorem trees_numbered (c : Contract) (id : Nat) : (c.numbered id).trees = c.trees := by
  simp only [trees, numbered, List.filterMap_map, Function.comp_def]
  rfl

theorem fresh_of_relabel {c : Contract} {m : Nat → Nat}
    (h : c.relabel NodeKind.unclassified m = c) : c.Fresh := by
  have hfunctions : c.functions.map (Function.relabel NodeKind.unclassified m) =
    c.functions.map fun f => f := by rw [List.map_id']; exact congrArg Contract.functions h
  have hmodifiers : c.modifiers.map (Modifier.relabel NodeKind.unclassified m) =
    c.modifiers.map fun d => d := by rw [List.map_id']; exact congrArg Contract.modifiers h
  have hvariables : c.stateVariables.map (StateVariable.relabel NodeKind.unclassified m) =
    c.stateVariables.map fun v => v := by
    rw [List.map_id']; exact congrArg Contract.stateVariables h
  have htree : ∀ (o : Option Node), o.map (Node.relabel NodeKind.unclassified m) = o →
      ∀ n, o = some n → n.Fresh := by
    rintro _ ho n rfl
    exact Node.fresh_of_relabel (Option.some.inj ho)
  intro t ht
  simp only [trees, List.mem_append, List.mem_filterMap, Option.map_eq_some_iff] at ht
  rcases ht with (⟨f, hf, n, hn, rfl⟩ | ⟨d, hd, n, hn, rfl⟩) | ⟨v, hv, n, hn, rfl⟩
  · exact htree f.body (congrArg Function.body (List.map_inj_left.1 hfunctions f hf)) n hn
  · exact htree d.body (congrArg Modifier.body (List.map_inj_left.1 hmodifiers d hd)) n hn
  · exact htree v.initializer
      (congrArg StateVariable.initializer (List.map_inj_left.1 hvariables v hv)) n hn

end Contract

end ContractAtlas
