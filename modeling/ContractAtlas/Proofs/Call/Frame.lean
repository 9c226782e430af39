import ContractAtlas.Call.Analysis
import ContractAtlas.Proofs.Program.Relabel

/-! What the call analysis leaves alone: it writes classifications of calls and summaries of
functions, and it reads neither. -/
namespace ContractAtlas

variable {settings : Settings} {s : Scope}

namespace Scope

/-- What the analysis says of a call without a classification, `emitted` being the text of the emit
statement whose event the call invokes. -/
def verdict (settings : Settings) (s : Scope) (emitted : Option Text) (site : CallSite)
    (source : Text) : CallKind :=
  match emitted with
  | some statement => CallKind.detect settings.knownLibraries none statement
  | none => s.callKind settings site source

end Scope

namespace NodeKind

/-- The kind of a node after the analysis. A classification that is there stays. -/
def classified (settings : Settings) (s : Scope) (emitted : Option Text) (source : Text) :
    NodeKind → NodeKind
  | call site =>
    call { site with kind := some (site.kind.getD (s.verdict settings emitted site source)) }
  | k => k

/-- The text that tells the event of an emit statement. -/
def emitted? (source : Text) : NodeKind → Option Text
  | emit _ => some source
  | _ => none

theorem unclassified_classified (emitted : Option Text) (source : Text) (k : NodeKind) :
    (k.classified settings s emitted source).unclassified = k.unclassified := by
  cases k <;> rfl

end NodeKind

namespace Node

section Siblings
variable {β γ : Type} {F G : Option Text → Node → β} {e : Option Text} {ns : List Node}

/-- `F` over siblings, where only the first can be the invocation of an event. -/
def overSiblings (F : Option Text → Node → β) (emitted : Option Text) : List Node → List β
  | [] => []
  | n :: ns => F emitted n :: ns.map (F none)

theorem overSiblings_congr (h : ∀ c ∈ ns, ∀ e, F e c = G e c) :
    overSiblings F e ns = overSiblings G e ns := by
  cases ns with
  | nil => rfl
  | cons c cs =>
    rw [overSiblings, overSiblings, h c List.mem_cons_self]
    exact congrArg _ (List.map_congr_left fun d hd => h d (List.mem_cons_of_mem _ hd) none)

theorem map_overSiblings (f : β → γ) :
    (overSiblings F e ns).map f = overSiblings (fun e n => f (F e n)) e ns := by
  cases ns with
  | nil => rfl
  | cons c cs =>
    rw [overSiblings, List.map_cons, List.map_map]
    rfl

theorem overSiblings_map (f : Node → Node) :
    overSiblings F e (ns.map f) = overSiblings (fun e n => F e (f n)) e ns := by
  cases ns with
  | nil => rfl
  | cons c cs =>
    rw [List.map_cons, overSiblings, List.map_map]
    rfl

theorem overSiblings_const (f : Node → β) : overSiblings (fun _ => f) e ns = ns.map f := by
  cases ns <;> rfl

theorem overSiblings_none : overSiblings F none ns = ns.map (F none) := by
  cases ns <;> rfl

theorem exists_of_mem_overSiblings {b : β} (h : b ∈ overSiblings F e ns) :
    ∃ n ∈ ns, ∃ e, b = F e n := by
  cases ns with
  | nil => cases h
  | cons n ns =>
    rcases List.mem_cons.1 h with rfl | h
    · exact ⟨n, List.mem_cons_self, e, rfl⟩
    · obtain ⟨d, hd, rfl⟩ := List.mem_map.1 h
      exact ⟨d, List.mem_cons_of_mem n hd, none, rfl⟩

end Siblings

private theorem classifyAll_eq (e : Option Text) (ns : List Node) :
    classifyAll settings s e ns = overSiblings (classifyCalls settings s) e ns := by
  induction ns generalizing e with
  | nil => rfl
  | cons n ns ih => rw [classifyAll, ih, overSiblings_none, overSiblings]

theorem classifyCalls_mk (emitted : Option Text) (kind : NodeKind) (span : Span) (excerpt : Excerpt)
    (children : List Node) :
    classifyCalls settings s emitted ⟨kind, span, excerpt, children⟩ =
      ⟨kind.classified settings s emitted excerpt.text, span, excerpt,
        overSiblings (classifyCalls settings s) (kind.emitted? excerpt.text) children⟩ := by
  rw [← classifyAll_eq]
  cases kind with
  | call site => rcases site with ⟨callee, options, _ | _⟩ <;> rfl
  | _ => rfl

/-- The tree without the classifications of its calls. -/
def unclassified (n : Node) : Node := n.relabel NodeKind.unclassified id

theorem unclassified_unclassified (n : Node) : n.unclassified.unclassified = n.unclassified := by
  have h : NodeKind.unclassified ∘ NodeKind.unclassified = NodeKind.unclassified := by
    funext k
    cases k <;> rfl
  rw [unclassified, unclassified, relabel_relabel, h]
  rfl

/-- Classifying the calls of a tree changes nothing but classifications. -/
theorem unclassified_classifyCalls (n : Node) (emitted : Option Text) :
    (classifyCalls settings s emitted n).unclassified = n.unclassified := by
  induction n generalizing emitted with
  | node kind span excerpt children ih =>
    have h : (overSiblings (classifyCalls settings s) (kind.emitted? excerpt.text) children).map
        unclassified = children.map unclassified := by
      rw [map_overSiblings, overSiblings_congr ih, overSiblings_const]
    rw [unclassified, unclassified, classifyCalls_mk, relabel_mk, relabel_mk,
      NodeKind.unclassified_classified]
    exact congrArg (Node.mk kind.unclassified (span.renumber id) excerpt) h

/-- File numbers play no part in classifying calls. -/
theorem relabel_classifyCalls (m : Nat → Nat) (e : Option Text) :
    relabel (fun k => k) m ∘ classifyCalls settings s e =
      classifyCalls settings s e ∘ relabel (fun k => k) m := by
  funext n
  rw [Function.comp_apply, Function.comp_apply]
  induction n generalizing e with
  | node kind span excerpt children ih =>
    rw [classifyCalls_mk, relabel_mk, relabel_mk, classifyCalls_mk, map_overSiblings,
      overSiblings_map, overSiblings_congr ih]

/-- Nor does the number of the contract. -/
theorem classifyCalls_placed (i : Nat) :
    classifyCalls settings { s with contract := i } = classifyCalls settings s := by
  funext e n
  induction n generalizing e with
  | node kind span excerpt children ih =>
    have h : overSiblings (classifyCalls settings { s with contract := i })
        (kind.emitted? excerpt.text) children =
          overSiblings (classifyCalls settings s) (kind.emitted? excerpt.text) children :=
      overSiblings_congr fun c hc e => ih c hc e
    rw [classifyCalls_mk, classifyCalls_mk, h]
    rfl

section Tags
variable {g : NodeKind → NodeKind} {m : Nat → Nat} (hg : NodeKind.Reclassifies g)
include hg

theorem externalTag?_relabel (n : Node) :
    (n.relabel g m).externalTag? settings s = n.externalTag? settings s := by
  rcases relabel_cases (m := m) hg n with ⟨site, kind, hs, hk⟩ | ⟨-, hk⟩
  · simp only [externalTag?, callSite?, hs, hk, Option.bind_eq_bind, Option.bind_some]
  · simp only [externalTag?, callSite?, hk]

theorem transferTag?_relabel (n : Node) :
    (n.relabel g m).transferTag? settings s = n.transferTag? settings s := by
  have hlength : (n.relabel g m).arguments.length = n.arguments.length := by
    rw [arguments_relabel hg, List.length_map]
  rcases relabel_cases (m := m) hg n with ⟨site, kind, hs, hk⟩ | ⟨-, hk⟩
  · simp only [transferTag?, callSite?, hs, hk, externalTag?_relabel hg, relabel_text, hlength,
      Option.bind_eq_bind, Option.bind_some]
  · simp only [transferTag?, callSite?, hk, externalTag?_relabel hg, relabel_text, hlength]

end Tags

end Node

namespace Function
variable {g : NodeKind → NodeKind} {m : Nat → Nat}

theorem within_relabel (hg : NodeKind.Reclassifies g) (f : Function) :
    s.within (f.relabel g m) = s.within f := by
  rw [Scope.within, Scope.within, relabel, Option.map_map]
  congr 4
  exact congrArg (f.body.map ·) (funext fun n => Node.declaredNames_relabel hg n)

theorem summarize_relabel (hg : NodeKind.Reclassifies g) (f : Function) :
    (f.relabel g m).summarize settings s = f.summarize settings s := by
  rw [summarize, summarize, relabel]
  cases f.body with
  | none => rfl
  | some body =>
    simp only [Option.map_some, Node.directCalls_relabel hg, List.filterMap_map, Function.comp_def,
      Node.externalTag?_relabel hg, Node.transferTag?_relabel hg]

/-- The function as it was before any analysis. -/
def unanalysed (f : Function) : Function :=
  { f with body := f.body.map Node.unclassified, summary := {} }

theorem unanalysed_unanalysed (f : Function) : f.unanalysed.unanalysed = f.unanalysed := by
  simp only [unanalysed, Option.map_map, Function.comp_def, Node.unclassified_unclassified]

theorem within_unanalysed (f : Function) : s.within f.unanalysed = s.within f :=
  within_relabel NodeKind.reclassifies_unclassified f

theorem summarize_unanalysed (f : Function) :
    f.unanalysed.summarize settings s = f.summarize settings s :=
  summarize_relabel NodeKind.reclassifies_unclassified f

theorem unanalysed_analyze (f : Function) : (f.analyze settings s).unanalysed = f.unanalysed := by
  simp only [unanalysed, analyze, classifyCalls, Option.map_map, Function.comp_def,
    Node.unclassified_classifyCalls]

end Function

namespace Contract

/-- The contract as it was before any analysis. -/
def unanalysed (c : Contract) : Contract :=
  { c with
    functions := c.functions.map Function.unanalysed
    modifiers := c.modifiers.map fun d => { d with body := d.body.map Node.unclassified }
    stateVariables := c.stateVariables.map fun v =>
      { v with initializer := v.initializer.map Node.unclassified } }

theorem unanalysed_unanalysed (c : Contract) : c.unanalysed.unanalysed = c.unanalysed := by
  simp only [unanalysed, List.map_map, Function.comp_def, Function.unanalysed_unanalysed,
    Option.map_map, Node.unclassified_unclassified]

theorem unanalysed_analyze (c : Contract) : (c.analyze settings s).unanalysed = c.unanalysed := by
  simp only [unanalysed, analyze, List.map_map, Function.comp_def, Function.unanalysed_analyze,
    Option.map_map, Node.unclassified_classifyCalls]

end Contract

namespace Program

/-- The program as it was before any analysis. -/
def unanalysed (p : Program) : Program :=
  { p with contracts := p.contracts.map Contract.unanalysed }

/-- An analysis changes nothing but classifications and summaries. -/
theorem unanalysed_analyze (p : Program) : (p.analyze settings).unanalysed = p.unanalysed := by
  simp only [unanalysed, analyze, List.map_map, Function.comp_def, Contract.unanalysed_analyze]

end Program

end ContractAtlas
