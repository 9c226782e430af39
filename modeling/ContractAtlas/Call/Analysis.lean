import ContractAtlas.Call.Tags

/-! The call analysis of a program: every call gets a kind, every function a summary. -/
namespace ContractAtlas

namespace Scope

/-- The kind of a call by its own text. -/
def callKind (settings : Settings) (s : Scope) (site : CallSite) (source : Text) : CallKind :=
  let bare := if site.callee.target?.isNone then site.callee.name? else none
  CallKind.detect settings.knownLibraries (some (s.hints bare)) source

end Scope

namespace Node

mutual

/-- Gives every call of the tree that has no kind yet its kind. The invocation of an emitted event
is told by the text of the emit statement, which is then `emitted`. -/
def classifyCalls (settings : Settings) (s : Scope) (emitted : Option Text) : Node → Node
  | ⟨kind, span, excerpt, children⟩ =>
    let kind' := match kind with
      | .call site =>
        match site.kind with
        | some _ => kind
        | none =>
          let found := match emitted with
            | some statement => CallKind.detect settings.knownLibraries none statement
            | none => s.callKind settings site excerpt.text
          .call { site with kind := some found }
      | _ => kind
    let first := match kind with
      | .emit _ => some excerpt.text
      | _ => none
    ⟨kind', span, excerpt, classifyAll settings s first children⟩

/-- The same for siblings, of which only the first can be the invocation of an event. -/
def classifyAll (settings : Settings) (s : Scope) (emitted : Option Text) : List Node → List Node
  | [] => []
  | n :: ns => classifyCalls settings s emitted n :: classifyAll settings s none ns

end

end Node

namespace Function

/-- The tags of the body's direct calls. -/
def summarize (settings : Settings) (s : Scope) (f : Function) : CallSummary :=
  match f.body with
  | some body =>
    .ofTags (.ofList (body.directCalls.filterMap (Node.externalTag? settings s)))
      (.ofList (body.directCalls.filterMap (Node.transferTag? settings s)))
  | none => {}

/-- Classifies the calls of the body without a new summary. -/
def classifyCalls (settings : Settings) (s : Scope) (f : Function) : Function :=
  { f with body := f.body.map (Node.classifyCalls settings (s.within f) none) }

/-- Renews the summary and classifies the calls of the body. -/
def analyze (settings : Settings) (s : Scope) (f : Function) : Function :=
  { f.classifyCalls settings s with summary := f.summarize settings (s.within f) }

end Function

namespace Contract

/-- Analyses all functions; modifiers and initialisers only have their calls classified. -/
def analyze (settings : Settings) (s : Scope) (c : Contract) : Contract :=
  { c with
    functions := c.functions.map (Function.analyze settings s)
    modifiers := c.modifiers.map fun m =>
      { m with body := m.body.map (Node.classifyCalls settings s none) }
    stateVariables := c.stateVariables.map fun v =>
      { v with initializer := v.initializer.map (Node.classifyCalls settings s none) } }

end Contract

namespace Program

/-- Classifies the calls of one function, the one at `index` in its contract. -/
def classifyCalls (settings : Settings) (p : Program) (contract index : Nat) : Program :=
  { p with
    contracts := p.contracts.modify contract fun c =>
      { c with
        functions := c.functions.modify index
          (Function.classifyCalls settings (Scope.ofContract p contract)) } }

/-- Analyses every contract in its own scope. -/
def analyze (settings : Settings) (p : Program) : Program :=
  { p with contracts := p.contracts.map fun c => c.analyze settings (Scope.ofContract p c.id) }

end Program

end ContractAtlas
