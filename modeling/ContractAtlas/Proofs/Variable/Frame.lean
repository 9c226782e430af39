import ContractAtlas.Flow.Builder
import ContractAtlas.Proofs.Symbol.Frame
import ContractAtlas.Variable.Log

/-! What the analyses of variables read of a function: neither the classifications of its calls nor
its summary. -/
namespace ContractAtlas

namespace Node

theorem unclassified_mk (kind : NodeKind) (span : Span) (excerpt : Excerpt) (children : List Node) :
    unclassified ⟨kind, span, excerpt, children⟩ =
      ⟨kind.unclassified, span, excerpt, children.map unclassified⟩ := relabel_mk ..

theorem span_unclassified (n : Node) : n.unclassified.span = n.span := relabel_span n

theorem text_unclassified (n : Node) : n.unclassified.text = n.text := relabel_text n

theorem isStatement_unclassified (n : Node) : n.unclassified.isStatement = n.isStatement := by
  rw [isStatement, unclassified, relabel_kind, NodeKind.reclassifies_unclassified.isStatement,
    isStatement]

theorem identifier?_unclassified (n : Node) : n.unclassified.identifier? = n.identifier? := by
  rcases n with ⟨kind, span, excerpt, children⟩
  cases kind <;> rfl

theorem isWriteExpression_unclassified (n : Node) :
    n.unclassified.isWriteExpression = n.isWriteExpression := by
  rcases n with ⟨kind, span, excerpt, children⟩
  cases kind <;> rfl

private theorem writtenNamesIn_map {ns : List Node}
    (hns : ∀ c ∈ ns, c.unclassified.writtenNames = c.writtenNames) :
    writtenNamesIn (ns.map unclassified) = writtenNamesIn ns := by
  induction ns with
  | nil => rfl
  | cons c cs ih =>
    rw [List.map_cons, writtenNamesIn, writtenNamesIn, hns c List.mem_cons_self,
      ih fun d hd => hns d (List.mem_cons_of_mem _ hd)]

theorem writtenNames_unclassified (n : Node) : n.unclassified.writtenNames = n.writtenNames := by
  induction n with
  | node kind span excerpt children ih =>
    rw [unclassified_mk]
    cases kind with
    | indexAccess | memberAccess =>
      cases children with
      | nil => rfl
      | cons base rest => exact ih base List.mem_cons_self
    | tuple | parenthesized => exact writtenNamesIn_map ih
    | _ => rfl

section Sightings
variable (function : String)

private theorem expressionSightings_map {ns : List Node} {statement : Text} {access : Access}
    (hns : ∀ c ∈ ns, expressionSighting function statement access c.unclassified =
      expressionSighting function statement access c) :
    expressionSightings function statement access (ns.map unclassified) =
      expressionSightings function statement access ns := by
  induction ns with
  | nil => rfl
  | cons c cs ih =>
    rw [List.map_cons, expressionSightings, expressionSightings, hns c List.mem_cons_self,
      ih fun d hd => hns d (List.mem_cons_of_mem _ hd)]

private theorem partSightings_map {ns : List Node} {statement : Text}
    (hns : ∀ c ∈ ns,
      expressionSighting function statement .read c.unclassified =
        expressionSighting function statement .read c ∧
      sightings function c.unclassified = sightings function c) :
    partSightings function statement (ns.map unclassified) =
      partSightings function statement ns := by
  induction ns with
  | nil => rfl
  | cons c cs ih =>
    rw [List.map_cons, partSightings, partSightings, isStatement_unclassified,
      (hns c List.mem_cons_self).1, (hns c List.mem_cons_self).2,
      ih fun d hd => hns d (List.mem_cons_of_mem _ hd)]

/-- References are found in the same places whatever the calls are classified as. -/
theorem sightings_unclassified (n : Node) :
    (∀ (statement : Text) (access : Access),
      expressionSighting function statement access n.unclassified =
        expressionSighting function statement access n) ∧
    sightings function n.unclassified = sightings function n := by
  induction n with
  | node kind span excerpt children ih =>
    have hall : ∀ ns, ns ⊆ children → ∀ (statement : Text) (access : Access),
        expressionSightings function statement access (ns.map unclassified) =
          expressionSightings function statement access ns :=
      fun ns hns statement access =>
        expressionSightings_map function fun c hc => (ih c (hns hc)).1 statement access
    have hparts : ∀ statement : Text,
        partSightings function statement (children.map unclassified) =
          partSightings function statement children :=
      fun statement => partSightings_map function fun c hc =>
        ⟨(ih c hc).1 statement .read, (ih c hc).2⟩
    rw [unclassified_mk]
    constructor
    · intro statement access
      cases kind with
      | indexAccess | memberAccess | assignment | call =>
        cases children with
        | nil => rfl
        | cons first rest =>
          simp only [List.map_cons, NodeKind.unclassified, expressionSighting,
            identifier?_unclassified, span_unclassified, (ih first List.mem_cons_self).1,
            hall rest (List.subset_cons_self first rest)]
      | update => exact hall children (List.Subset.refl _) statement .readWrite
      | identifier | literal | elementaryType | creation => rfl
      | _ => exact hparts statement
    · cases kind with
      | declaration names =>
        rw [sightings, ← hall children (List.Subset.refl _) excerpt.text .read]
        rfl
      | assembly => rfl
      | _ => exact hparts excerpt.text

end Sightings

section Flow
variable (statement : Text)

private theorem updateAll_map (operands : List Node) (b : FlowBuilder) :
    updateAll statement (operands.map unclassified) b = updateAll statement operands b := by
  simp only [updateAll, List.foldl_map, writtenNames_unclassified, span_unclassified]

private theorem readsAll_map {kind : FlowKind} {ns : List Node}
    (hns : ∀ c ∈ ns, ∀ b, reads statement kind c.unclassified b = reads statement kind c b)
    (b : FlowBuilder) :
    readsAll statement kind (ns.map unclassified) b = readsAll statement kind ns b := by
  induction ns generalizing b with
  | nil => rfl
  | cons c cs ih =>
    have hrest := ih fun d hd => hns d (List.mem_cons_of_mem _ hd)
    simp only [List.map_cons, readsAll, hns c List.mem_cons_self, hrest]

theorem reads_unclassified (n : Node) :
    (∀ (kind : FlowKind) (b : FlowBuilder),
      reads statement kind n.unclassified b = reads statement kind n b) ∧
    ∀ b : FlowBuilder, targetKeys statement n.unclassified b = targetKeys statement n b := by
  induction n with
  | node nodeKind span excerpt children ih =>
    have hall : ∀ ns, ns ⊆ children → ∀ (kind : FlowKind) (b : FlowBuilder),
        readsAll statement kind (ns.map unclassified) b = readsAll statement kind ns b :=
      fun ns hns kind b => readsAll_map statement (fun c hc => (ih c (hns hc)).1 kind) b
    rw [unclassified_mk]
    constructor
    · intro kind b
      cases nodeKind with
      | assignment operator =>
        cases children with
        | nil => rfl
        | cons target values =>
          have htarget := ih target List.mem_cons_self
          have hvalues := hall values (List.subset_cons_self target values) .direct b
          simp only [List.map_cons, NodeKind.unclassified, reads, hvalues, htarget.2,
            span_unclassified, writtenNames_unclassified]
          rcases values with _ | ⟨value, _ | ⟨next, rest⟩⟩
          · rfl
          · simp only [List.map_cons, List.map_nil, identifier?_unclassified]
          · rfl
      | update => exact congrArg _ (updateAll_map statement children b)
      | call site =>
        cases children with
        | nil => rfl
        | cons callee arguments =>
          simp only [List.map_cons, NodeKind.unclassified, reads, identifier?_unclassified,
            (ih callee List.mem_cons_self).1,
            hall arguments (List.subset_cons_self callee arguments)]
      | identifier | literal | elementaryType | creation => rfl
      | _ => exact hall children (List.Subset.refl _) kind b
    · intro b
      cases nodeKind with
      | indexAccess | memberAccess =>
        cases children with
        | nil => rfl
        | cons base rest =>
          simp only [List.map_cons, NodeKind.unclassified, targetKeys,
            (ih base List.mem_cons_self).2, hall rest (List.subset_cons_self base rest)]
      | _ => rfl

private theorem guardedFlow_map {ns : List Node}
    (hns : ∀ c ∈ ns, ∀ b, flow c.unclassified b = flow c b) (b : FlowBuilder) :
    guardedFlow statement (ns.map unclassified) b = guardedFlow statement ns b := by
  induction ns generalizing b with
  | nil => rfl
  | cons c cs ih =>
    have hrest := ih fun d hd => hns d (List.mem_cons_of_mem _ hd)
    simp only [List.map_cons, guardedFlow, isStatement_unclassified, isWriteExpression_unclassified,
      hns c List.mem_cons_self, (reads_unclassified statement c).1, text_unclassified, hrest]

private theorem partFlow_map {ns : List Node}
    (hns : ∀ c ∈ ns, ∀ b, flow c.unclassified b = flow c b) (b : FlowBuilder) :
    partFlow statement (ns.map unclassified) b = partFlow statement ns b := by
  induction ns generalizing b with
  | nil => rfl
  | cons c cs ih =>
    have hrest := ih fun d hd => hns d (List.mem_cons_of_mem _ hd)
    simp only [List.map_cons, partFlow, isStatement_unclassified, hns c List.mem_cons_self,
      (reads_unclassified statement c).1, hrest]

end Flow

theorem flow_unclassified (n : Node) (b : FlowBuilder) : flow n.unclassified b = flow n b := by
  induction n generalizing b with
  | node kind span excerpt children ih =>
    have hall : ∀ (kind : FlowKind) (b : FlowBuilder),
        readsAll excerpt.text kind (children.map unclassified) b =
          readsAll excerpt.text kind children b :=
      fun kind => readsAll_map excerpt.text fun c _ => (reads_unclassified excerpt.text c).1 kind
    rw [unclassified_mk]
    cases kind with
    | declaration names =>
      simp only [NodeKind.unclassified, flow, hall]
      rcases children with _ | ⟨value, _ | ⟨next, rest⟩⟩
      · rfl
      · simp only [List.map_cons, List.map_nil, identifier?_unclassified]
      · rfl
    | returnStatement => exact congrArg Prod.snd (hall .returned b)
    | ifStatement | whileLoop | forLoop | doWhileLoop =>
      simp only [NodeKind.unclassified, flow, guardedFlow_map excerpt.text ih]
    | assembly => rfl
    | _ => exact partFlow_map excerpt.text ih b

end Node

namespace Function

theorem sightings_unanalysed (f : Function) : f.unanalysed.sightings = f.sightings := by
  have hbody : (f.body.map Node.unclassified).map (Node.sightings f.name) =
      f.body.map (Node.sightings f.name) := by
    rw [Option.map_map]
    exact congrArg (f.body.map ·) (funext fun n => (n.sightings_unclassified f.name).2)
  exact congrArg (_ ++ Option.getD · []) hbody

theorem flowGraph_unanalysed (f : Function) : f.unanalysed.flowGraph = f.flowGraph := by
  rw [flowGraph, flowGraph, unanalysed]
  cases f.body with
  | none => rfl
  | some body => exact congrArg FlowBuilder.graph (body.flow_unclassified f.parameterFlow)

end Function

theorem VariableLog.track_unanalysed (log : VariableLog) (f : Function) :
    log.track f.unanalysed = log.track f := by
  have hkey : f.unanalysed.key = f.key := rfl
  rw [track, track, f.sightings_unanalysed, hkey]

end ContractAtlas
