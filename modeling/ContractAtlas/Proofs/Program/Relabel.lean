import ContractAtlas.Call.Scope
import ContractAtlas.Proofs.Program.Walk

/-! Trees and contracts with other file numbers or other classifications of their calls, and what
such a change leaves as it was. -/
namespace ContractAtlas

namespace NodeKind

/-- The kind of a node without the classification of a call. -/
def unclassified : NodeKind → NodeKind
  | call site => call { site with kind := none }
  | k => k

/-- `g` changes nothing of a kind of node but the classification of a call. -/
structure Reclassifies (g : NodeKind → NodeKind) : Prop where
  call : ∀ site, ∃ kind, g (.call site) = .call { site with kind := kind }
  rest : ∀ k, (∀ site, k ≠ .call site) → g k = k

theorem reclassifies_id : Reclassifies fun k => k :=
  ⟨fun site => ⟨site.kind, rfl⟩, fun _ _ => rfl⟩

theorem reclassifies_unclassified : Reclassifies unclassified where
  call _ := ⟨none, rfl⟩
  rest k hk := by
    cases k with
    | call site => exact absurd rfl (hk site)
    | _ => rfl

end NodeKind

namespace Span

/-- The same place under another file number. -/
def renumber (m : Nat → Nat) (s : Span) : Span := { s with file := m s.file }

end Span

namespace Node

mutual

/-- The tree with its file numbers changed by `m` and its kinds by `g`. -/
def relabel (g : NodeKind → NodeKind) (m : Nat → Nat) : Node → Node
  | ⟨kind, span, excerpt, children⟩ =>
    ⟨g kind, span.renumber m, excerpt, relabelAll g m children⟩

def relabelAll (g : NodeKind → NodeKind) (m : Nat → Nat) : List Node → List Node
  | [] => []
  | n :: ns => relabel g m n :: relabelAll g m ns

end

variable {g g' : NodeKind → NodeKind} {m m' : Nat → Nat}

theorem relabelAll_eq (g : NodeKind → NodeKind) (m : Nat → Nat) (ns : List Node) :
    relabelAll g m ns = ns.map (relabel g m) := by
  induction ns with
  | nil => rfl
  | cons n ns ih => rw [relabelAll, ih, List.map_cons]

theorem relabel_mk (kind : NodeKind) (span : Span) (excerpt : Excerpt) (children : List Node) :
    relabel g m ⟨kind, span, excerpt, children⟩ =
      ⟨g kind, span.renumber m, excerpt, children.map (relabel g m)⟩ := by
  rw [relabel, relabelAll_eq]

@[simp] theorem relabel_kind (n : Node) : (n.relabel g m).kind = g n.kind := by
  cases n; rfl

@[simp] theorem relabel_excerpt (n : Node) : (n.relabel g m).excerpt = n.excerpt := by
  cases n; rfl

@[simp] theorem relabel_text (n : Node) : (n.relabel g m).text = n.text := by
  rw [text, relabel_excerpt, text]

@[simp] theorem relabel_children (n : Node) :
    (n.relabel g m).children = n.children.map (relabel g m) := by
  cases n; rw [relabel_mk]

theorem relabel_relabel (n : Node) :
    (n.relabel g m).relabel g' m' = n.relabel (g' ∘ g) (m' ∘ m) := by
  induction n with
  | node kind span excerpt children ih =>
    have h : children.map (relabel g' m' ∘ relabel g m) =
        children.map (relabel (g' ∘ g) (m' ∘ m)) :=
      List.map_congr_left ih
    rw [relabel_mk, relabel_mk, relabel_mk, List.map_map, h]
    rfl

namespace Visit

def relabel (g : NodeKind → NodeKind) (m : Nat → Nat) (v : Visit) : Visit :=
  ⟨v.node.relabel g m, v.ancestors.map (Node.relabel g m), v.index⟩

end Visit

private theorem walkAll_relabel {ns : List Node} (hns : ∀ c ∈ ns, ∀ a i,
      walkFrom (a.map (relabel g m)) i (c.relabel g m) = (walkFrom a i c).map (Visit.relabel g m))
    (a : List Node) (i : Nat) :
    walkAll (a.map (relabel g m)) i (ns.map (relabel g m)) =
      (walkAll a i ns).map (Visit.relabel g m) := by
  induction ns generalizing i with
  | nil => rfl
  | cons c cs ih =>
    rw [List.map_cons, walkAll, walkAll, List.map_append, hns c List.mem_cons_self,
      ih fun d hd => hns d (List.mem_cons_of_mem _ hd)]

private theorem walkFrom_relabel (n : Node) (a : List Node) (i : Nat) :
    walkFrom (a.map (relabel g m)) i (n.relabel g m) =
      (walkFrom a i n).map (Visit.relabel g m) := by
  induction n generalizing a i with
  | node kind span excerpt children ih =>
    rw [relabel_mk, walkFrom, walkFrom, List.map_cons, ← relabel_mk]
    have h := walkAll_relabel ih (a ++ [⟨kind, span, excerpt, children⟩]) 0
    rw [List.map_append, List.map_singleton] at h
    rw [h]
    rfl

theorem walk_relabel (n : Node) : (n.relabel g m).walk = n.walk.map (Visit.relabel g m) :=
  walkFrom_relabel n [] 0

theorem descendants_relabel (n : Node) :
    (n.relabel g m).descendants = n.descendants.map (relabel g m) := by
  rw [← map_node_walk, ← map_node_walk, walk_relabel, List.map_map, List.map_map]
  rfl

section Reclassifies
variable (hg : NodeKind.Reclassifies g)
include hg

/-- A call stays a call with the same callee, and any other node keeps its kind. -/
theorem relabel_cases (n : Node) :
    (∃ site kind, n.kind = .call site ∧ (n.relabel g m).kind = .call { site with kind := kind }) ∨
      (∀ site, n.kind ≠ .call site) ∧ (n.relabel g m).kind = n.kind := by
  by_cases h : ∃ site, n.kind = .call site
  · obtain ⟨site, hs⟩ := h
    obtain ⟨kind, hk⟩ := hg.call site
    exact .inl ⟨site, kind, hs, by rw [relabel_kind, hs, hk]⟩
  · have hn : ∀ site, n.kind ≠ .call site := fun site hs => h ⟨site, hs⟩
    exact .inr ⟨hn, by rw [relabel_kind, hg.rest _ hn]⟩

@[simp] theorem isCall_relabel (n : Node) : (n.relabel g m).isCall = n.isCall := by
  rcases relabel_cases (m := m) hg n with ⟨site, kind, hs, hk⟩ | ⟨-, hk⟩
  · simp only [isCall, callSite?, hs, hk, Option.isSome_some]
  · simp only [isCall, callSite?, hk]

theorem arguments_relabel (n : Node) :
    (n.relabel g m).arguments = n.arguments.map (relabel g m) := by
  rw [arguments, arguments, isCall_relabel hg, relabel_children, apply_ite (List.map _),
    List.map_tail, List.map_nil]

theorem emitStatement?_relabel (v : Visit) :
    (v.relabel g m).emitStatement? = v.emitStatement?.map (relabel g m) := by
  rw [Visit.emitStatement?, Visit.emitStatement?, Visit.relabel, List.getLast?_map]
  cases v.ancestors.getLast? with
  | none => rfl
  | some parent =>
    rcases relabel_cases (m := m) hg parent with ⟨site, kind, hs, hk⟩ | ⟨-, hk⟩
    · simp only [Option.map_some, hs, hk, Option.map_none]
    · simp only [Option.map_some, hk]
      split
      · split <;> rfl
      · rfl

theorem directCalls_relabel (n : Node) :
    (n.relabel g m).directCalls = n.directCalls.map (relabel g m) := by
  have h : (fun v : Visit => v.node.isCall && v.emitStatement?.isNone) ∘ Visit.relabel g m =
      fun v => v.node.isCall && v.emitStatement?.isNone := by
    funext v
    rw [Function.comp_apply, emitStatement?_relabel hg, Option.isNone_map, Visit.relabel,
      isCall_relabel hg]
  rw [directCalls, directCalls, walk_relabel, List.filter_map, List.map_map, List.map_map, h]
  rfl

theorem calledNames_relabel (n : Node) : (n.relabel g m).calledNames = n.calledNames := by
  rw [calledNames, calledNames, directCalls_relabel hg, List.filterMap_map]
  refine congrArg (fun name => n.directCalls.filterMap name) (funext fun c => ?_)
  rcases relabel_cases (m := m) hg c with ⟨site, kind, hs, hk⟩ | ⟨-, hk⟩
  · simp only [Function.comp_apply, callSite?, hs, hk, Option.bind_some]
  · simp only [Function.comp_apply, callSite?, hk]

theorem declaredNames_relabel (n : Node) :
    Scope.declaredNames (n.relabel g m) = Scope.declaredNames n := by
  rw [Scope.declaredNames, Scope.declaredNames, descendants_relabel, List.flatMap_map]
  refine congrArg (fun names => n.descendants.flatMap names) (funext fun c => ?_)
  rcases relabel_cases (m := m) hg c with ⟨site, kind, hs, hk⟩ | ⟨-, hk⟩
  · simp only [hs, hk]
  · simp only [hk]

end Reclassifies

end Node

section Members
variable (g : NodeKind → NodeKind) (m : Nat → Nat)

def Function.relabel (f : Function) : Function :=
  { f with body := f.body.map (Node.relabel g m), span := f.span.renumber m }

def Modifier.relabel (d : Modifier) : Modifier :=
  { d with body := d.body.map (Node.relabel g m), span := d.span.renumber m }

def StateVariable.relabel (v : StateVariable) : StateVariable :=
  { v with initializer := v.initializer.map (Node.relabel g m), span := v.span.renumber m }

/-- The contract with its file numbers changed by `m` and the kinds of its nodes by `g`, those of
its members included. -/
def Contract.relabel (c : Contract) : Contract :=
  { c with
    functions := c.functions.map (Function.relabel g m)
    stateVariables := c.stateVariables.map (StateVariable.relabel g m)
    modifiers := c.modifiers.map (Modifier.relabel g m)
    events := c.events.map fun e => { e with span := e.span.renumber m }
    errors := c.errors.map fun e => { e with span := e.span.renumber m }
    structs := c.structs.map fun d => { d with span := d.span.renumber m }
    enums := c.enums.map fun e => { e with span := e.span.renumber m }
    file := m c.file
    span := c.span.renumber m }

end Members

section Composition
variable {g g' : NodeKind → NodeKind} {m m' : Nat → Nat}

private theorem map_relabel_relabel (o : Option Node) :
    (o.map (Node.relabel g m)).map (Node.relabel g' m') =
      o.map (Node.relabel (g' ∘ g) (m' ∘ m)) := by
  rw [Option.map_map]
  exact congrArg (o.map ·) (funext fun n => n.relabel_relabel)

theorem Function.relabel_relabel (f : Function) :
    (f.relabel g m).relabel g' m' = f.relabel (g' ∘ g) (m' ∘ m) := by
  rw [relabel, relabel, map_relabel_relabel]
  rfl

theorem Modifier.relabel_relabel (d : Modifier) :
    (d.relabel g m).relabel g' m' = d.relabel (g' ∘ g) (m' ∘ m) := by
  rw [relabel, relabel, map_relabel_relabel]
  rfl

theorem StateVariable.relabel_relabel (v : StateVariable) :
    (v.relabel g m).relabel g' m' = v.relabel (g' ∘ g) (m' ∘ m) := by
  rw [relabel, relabel, map_relabel_relabel]
  rfl

theorem Contract.relabel_relabel (c : Contract) :
    (c.relabel g m).relabel g' m' = c.relabel (g' ∘ g) (m' ∘ m) := by
  have hfunction : Function.relabel g' m' ∘ Function.relabel g m =
    Function.relabel (g' ∘ g) (m' ∘ m) := funext fun f => f.relabel_relabel
  have hmodifier : Modifier.relabel g' m' ∘ Modifier.relabel g m =
    Modifier.relabel (g' ∘ g) (m' ∘ m) := funext fun d => d.relabel_relabel
  have hvariable : StateVariable.relabel g' m' ∘ StateVariable.relabel g m =
    StateVariable.relabel (g' ∘ g) (m' ∘ m) := funext fun v => v.relabel_relabel
  simp only [relabel, List.map_map, hfunction, hmodifier, hvariable]
  rfl

end Composition

end ContractAtlas
