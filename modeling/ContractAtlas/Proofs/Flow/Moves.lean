import ContractAtlas.Proofs.Flow.Building
import Mathlib.Logic.Relation

/-! The moves of the builder. Going through an expression is a chain of single reads and writes,
each of which adds a known set of conditional edges; so does going through parts one after the
other. -/
namespace ContractAtlas

namespace FlowGraph

/-- The point of this number is a write. -/
def IsWrite (g : FlowGraph) (id : Nat) : Prop := ∃ p ∈ g.point? id, p.isWrite = true

instance (g : FlowGraph) (id : Nat) : Decidable (g.IsWrite id) :=
  decidable_of_iff ((g.point? id).any FlowPoint.isWrite = true) (Option.any_eq_true _ _)

theorem isWrite_withPoint {g : FlowGraph} {p : FlowPoint} {edges : List FlowEdge} {id : Nat} :
    (g.withPoint p edges).IsWrite id ↔ g.IsWrite id ∨ id = g.points.length ∧ p.isWrite = true := by
  constructor
  · rintro ⟨q, hq, hwrite⟩
    rcases mem_point?_withPoint hq with hq | ⟨hid, rfl⟩
    · exact .inl ⟨q, hq, hwrite⟩
    · exact .inr ⟨hid, hwrite⟩
  · rintro (⟨q, hq, hwrite⟩ | ⟨rfl, hwrite⟩)
    · exact ⟨q, (point?_withPoint (lt_of_mem_point? hq)).symm ▸ hq, hwrite⟩
    · exact ⟨_, point?_withPoint_self, hwrite⟩

theorem not_isWrite_length (g : FlowGraph) : ¬ g.IsWrite g.points.length := by
  rintro ⟨p, hp, -⟩
  exact Nat.lt_irrefl _ (lt_of_mem_point? hp)

end FlowGraph

namespace FlowBuilder
variable {b b' b'' : FlowBuilder} {id : Nat} {inner inner' : FlowEdge → Prop}

/-- The write of this number is made on the way from `b` to `b'`. -/
def Makes (b b' : FlowBuilder) (id : Nat) : Prop := ¬ b.graph.IsWrite id ∧ b'.graph.IsWrite id

/-- The edge by which a guard flows into a write. -/
def guardEdge (guard : Nat × Text) (id : Nat) : FlowEdge :=
  { source := guard.1, target := id, kind := .conditional, condition := some guard.2 }

/-- The edge leads from a guard of `b` to a write that is made on the way to `b'`. -/
def GuardsInto (b b' : FlowBuilder) (e : FlowEdge) : Prop :=
  ∃ guard ∈ b.guards, ∃ id, b.Makes b' id ∧ e = guardEdge guard id

/-- On the way from `b` to `b'` writes stay, and the conditional edges that come are those from the
guards of `b` to the writes that come, and the inner ones. -/
structure Flows (b : FlowBuilder) (inner : FlowEdge → Prop) (b' : FlowBuilder) : Prop where
  writes : ∀ id, b.graph.IsWrite id → b'.graph.IsWrite id
  edges : ∀ e, e.kind = .conditional →
    (e ∈ b'.graph.edges ↔ e ∈ b.graph.edges ∨ b.GuardsInto b' e ∨ inner e)

theorem not_makes_self (b : FlowBuilder) (id : Nat) : ¬ b.Makes b id := fun h => h.1 h.2

theorem makes_trans_iff (h : ∀ id, b.graph.IsWrite id → b'.graph.IsWrite id)
    (h' : ∀ id, b'.graph.IsWrite id → b''.graph.IsWrite id) :
    b.Makes b'' id ↔ b.Makes b' id ∨ b'.Makes b'' id := by
  constructor
  · rintro ⟨hold, hnew⟩
    by_cases hmid : b'.graph.IsWrite id
    · exact .inl ⟨hold, hmid⟩
    · exact .inr ⟨hmid, hnew⟩
  · rintro (⟨hold, hmid⟩ | ⟨hmid, hnew⟩)
    · exact ⟨hold, h' id hmid⟩
    · exact ⟨fun hold => hmid (h id hold), hnew⟩

theorem flows_refl (b : FlowBuilder) : b.Flows (fun _ => False) b where
  writes := fun _ h => h
  edges := by
    intro e _
    have hnone : ¬ b.GuardsInto b e := by
      rintro ⟨guard, -, id, hmakes, -⟩
      exact b.not_makes_self id hmakes
    simp only [hnone, or_false]

theorem Flows.trans (h : b.Flows inner b') (hguards : b'.guards = b.guards)
    (h' : b'.Flows inner' b'') : b.Flows (fun e => inner e ∨ inner' e) b'' where
  writes := fun id hid => h'.writes id (h.writes id hid)
  edges := by
    intro e he
    have hsplit : b.GuardsInto b'' e ↔ b.GuardsInto b' e ∨ b'.GuardsInto b'' e := by
      simp only [GuardsInto, hguards, makes_trans_iff h.writes h'.writes, or_and_right, exists_or,
        and_or_left]
    rw [h'.edges e he, h.edges e he, hsplit]
    tauto

theorem Flows.congr (h : b.Flows inner b') (hinner : ∀ e, inner e ↔ inner' e) : b.Flows inner' b' :=
  ⟨h.writes, fun e he => (h.edges e he).trans (or_congr_right (or_congr_right (hinner e)))⟩

/-- One read or one write. -/
inductive Step (b : FlowBuilder) : FlowBuilder → Prop
  | read (name : String) (span : Span) (statement : Text) (kind : FlowKind) :
    Step b (b.read name span statement kind).2
  | write (name : String) (span : Span) (statement : Text) (kind : FlowKind) (sources : List Nat)
    (isDirect : Bool) : Step b (b.write name span statement kind sources isDirect)

theorem Step.guards_eq (h : b.Step b') : b'.guards = b.guards := by
  cases h with
  | read name span statement kind => rw [read_eq]
  | write name span statement kind sources isDirect => rw [write_eq]

section Read
variable (name : String) (span : Span) (statement : Text) (kind : FlowKind)

theorem isWrite_read :
    (b.read name span statement kind).2.graph.IsWrite id ↔ b.graph.IsWrite id := by
  rw [read_eq, FlowGraph.isWrite_withPoint]
  exact or_iff_left fun h => Bool.false_ne_true h.2

theorem mem_edges_read {e : FlowEdge} (he : e.kind = .conditional) :
    e ∈ (b.read name span statement kind).2.graph.edges ↔ e ∈ b.graph.edges := by
  rw [read_eq, FlowGraph.withPoint, List.mem_append]
  refine or_iff_left fun hnew => ?_
  obtain ⟨write, -, heq⟩ := List.mem_map.1 hnew
  rw [← heq] at he
  cases he

end Read

section Write
variable (name : String) (span : Span) (statement : Text) (kind : FlowKind) (sources : List Nat)
  (isDirect : Bool)

theorem isWrite_write :
    (b.write name span statement kind sources isDirect).graph.IsWrite id ↔
      b.graph.IsWrite id ∨ id = b.graph.points.length := by
  rw [write_eq, FlowGraph.isWrite_withPoint, and_iff_left rfl]

theorem makes_write_iff : b.Makes (b.write name span statement kind sources isDirect) id ↔
    id = b.graph.points.length := by
  rw [Makes, isWrite_write]
  constructor
  · rintro ⟨hold, hnew⟩
    exact hnew.resolve_left hold
  · rintro rfl
    exact ⟨b.graph.not_isWrite_length, .inr rfl⟩

theorem mem_edges_write {e : FlowEdge} (he : e.kind = .conditional) :
    e ∈ (b.write name span statement kind sources isDirect).graph.edges ↔
      e ∈ b.graph.edges ∨ ∃ guard ∈ b.guards, guardEdge guard b.graph.points.length = e := by
  have hsources : e ∉ sources.map fun source =>
      { source, target := b.graph.points.length,
        kind := if isDirect then .direct else .indirect : FlowEdge } := by
    intro hm
    obtain ⟨source, -, rfl⟩ := List.mem_map.1 hm
    cases isDirect <;> cases he
  rw [write_eq, FlowGraph.withPoint, List.mem_append, writeEdges, List.mem_append,
    or_iff_right hsources, List.mem_map]
  rfl

end Write

/-- A read adds no conditional edge, and a write one from each guard. -/
theorem Step.flows (h : b.Step b') : b.Flows (fun _ => False) b' := by
  cases h with
  | read name span statement kind =>
    refine ⟨fun id => (isWrite_read name span statement kind).2, fun e he => ?_⟩
    have hnone : ¬ b.GuardsInto (b.read name span statement kind).2 e := by
      rintro ⟨guard, -, id, ⟨hold, hnew⟩, -⟩
      exact hold ((isWrite_read name span statement kind).1 hnew)
    rw [mem_edges_read name span statement kind he, or_false, or_iff_left hnone]
  | write name span statement kind sources isDirect =>
    refine ⟨fun id hid => (isWrite_write ..).2 (.inl hid), fun e he => ?_⟩
    simp only [mem_edges_write name span statement kind sources isDirect he, GuardsInto,
      makes_write_iff, exists_eq_left, or_false, eq_comm]

/-- The builder gets from `b` to `b'` by reads and writes. -/
def Moves (b b' : FlowBuilder) : Prop := Relation.ReflTransGen Step b b'

theorem Moves.refl (b : FlowBuilder) : b.Moves b := Relation.ReflTransGen.refl

theorem Step.moves (h : b.Step b') : b.Moves b' := Relation.ReflTransGen.single h

theorem Moves.trans (h : b.Moves b') (h' : b'.Moves b'') : b.Moves b'' :=
  Relation.ReflTransGen.trans h h'

theorem Moves.foldl {α : Type} {step : FlowBuilder → α → FlowBuilder}
    (hstep : ∀ (b : FlowBuilder) a, b.Moves (step b a)) (as : List α) (b : FlowBuilder) :
    b.Moves (as.foldl step b) := by
  induction as generalizing b with
  | nil => exact .refl b
  | cons a as ih => exact (hstep b a).trans (ih _)

theorem Moves.guards_eq (h : b.Moves b') : b'.guards = b.guards := by
  induction h with
  | refl => rfl
  | tail _ hstep ih => exact hstep.guards_eq.trans ih

theorem Moves.flows (h : b.Moves b') : b.Flows (fun _ => False) b' := by
  induction h with
  | refl => exact b.flows_refl
  | tail hmoves hstep ih =>
    exact (ih.trans (Moves.guards_eq hmoves) hstep.flows).congr fun _ => or_self_iff

/-- What holds behind a fold held before it or came with one of the steps. -/
private theorem foldl_holds_iff {α β : Type} {step : β → α → β} (holds : β → Prop)
    {comes : β → α → Prop} {as : List α}
    (hstep : ∀ a ∈ as, ∀ b, holds (step b a) ↔ holds b ∨ comes b a) (b : β) :
    holds (as.foldl step b) ↔
      holds b ∨ ∃ j a, as[j]? = some a ∧ comes ((as.take j).foldl step b) a := by
  induction as generalizing b with
  | nil => simp
  | cons a as ih =>
    obtain ⟨ha, has⟩ := List.forall_mem_cons.1 hstep
    have hsplit : (∃ j x, (a :: as)[j]? = some x ∧ comes (((a :: as).take j).foldl step b) x) ↔
        comes b a ∨ ∃ j x, as[j]? = some x ∧ comes ((as.take j).foldl step (step b a)) x := by
      rw [← Nat.or_exists_add_one]
      simp
    rw [List.foldl_cons, ih has, ha b, hsplit, or_assoc]

section Parts
variable {α : Type} {step : FlowBuilder → α → FlowBuilder} {as : List α}
  {inner : FlowBuilder → α → FlowEdge → Prop} {opens : FlowBuilder → α → Nat × Text → Prop}
  (hflows : ∀ a ∈ as, ∀ b : FlowBuilder, b.Flows (inner b a) (step b a))
include hflows

theorem isWrite_foldl_iff (b : FlowBuilder) :
    (as.foldl step b).graph.IsWrite id ↔ b.graph.IsWrite id ∨ ∃ j a, as[j]? = some a ∧
      ((as.take j).foldl step b).Makes (step ((as.take j).foldl step b) a) id := by
  have hstep : ∀ a ∈ as, ∀ b : FlowBuilder,
      (step b a).graph.IsWrite id ↔ b.graph.IsWrite id ∨ b.Makes (step b a) id := by
    intro a ha b
    constructor
    · intro hnew
      by_cases hold : b.graph.IsWrite id
      · exact .inl hold
      · exact .inr ⟨hold, hnew⟩
    · rintro (hold | hnew)
      · exact (hflows a ha b).writes id hold
      · exact hnew.2
  exact foldl_holds_iff (fun b => b.graph.IsWrite id) hstep b

theorem makes_foldl_iff (b : FlowBuilder) :
    b.Makes (as.foldl step b) id ↔ ∃ j a, as[j]? = some a ∧
      ((as.take j).foldl step b).Makes (step ((as.take j).foldl step b) a) id := by
  rw [Makes, isWrite_foldl_iff hflows b]
  constructor
  · rintro ⟨hold, hnew⟩
    exact hnew.resolve_left hold
  · rintro ⟨j, a, ha, hmakes⟩
    refine ⟨fun hold => hmakes.1 ?_, .inr ⟨j, a, ha, hmakes⟩⟩
    have htake : ∀ a ∈ as.take j, ∀ b : FlowBuilder, b.Flows (inner b a) (step b a) :=
      fun a ha => hflows a (List.mem_of_mem_take ha)
    exact (isWrite_foldl_iff htake b).2 (.inl hold)

/-- Going through parts that each may open guards for the parts after it. -/
theorem flows_foldl (hguards : ∀ a ∈ as, ∀ (b : FlowBuilder) guard,
      guard ∈ (step b a).guards ↔ guard ∈ b.guards ∨ opens b a guard) (b : FlowBuilder) :
    b.Flows (fun e => (∃ j a, as[j]? = some a ∧ inner ((as.take j).foldl step b) a e) ∨
      ∃ i j a later guard id, i < j ∧ as[i]? = some a ∧ opens ((as.take i).foldl step b) a guard ∧
        as[j]? = some later ∧
        ((as.take j).foldl step b).Makes (step ((as.take j).foldl step b) later) id ∧
        e = guardEdge guard id) (as.foldl step b) := by
  -- the guards at a part are those from before and what earlier parts opened
  have hopen : ∀ j guard, guard ∈ ((as.take j).foldl step b).guards ↔ guard ∈ b.guards ∨
      ∃ i a, i < j ∧ as[i]? = some a ∧ opens ((as.take i).foldl step b) a guard := by
    intro j guard
    rw [foldl_holds_iff (fun b => guard ∈ b.guards)
      fun a ha b => hguards a (List.mem_of_mem_take ha) b guard]
    refine or_congr_right (exists_congr fun i => exists_congr fun a => ?_)
    rw [List.getElem?_take]
    split
    · rename_i hi
      rw [List.take_take, Nat.min_eq_left (Nat.le_of_lt hi), and_iff_right hi]
    · rename_i hi
      exact iff_of_false (fun h => Option.some_ne_none a h.1.symm) fun h => hi h.1
  refine ⟨fun id hid => (isWrite_foldl_iff hflows b).2 (.inl hid), fun e he => ?_⟩
  rw [foldl_holds_iff (fun b => e ∈ b.graph.edges) fun a ha b => (hflows a ha b).edges e he]
  constructor
  · rintro (hold | ⟨j, a, ha, ⟨guard, hguard, id, hmakes, rfl⟩ | hinner⟩)
    · exact .inl hold
    · rcases (hopen j guard).1 hguard with hguard | ⟨i, c, hij, hc, hopens⟩
      · exact .inr (.inl ⟨guard, hguard, id, (makes_foldl_iff hflows b).2 ⟨j, a, ha, hmakes⟩, rfl⟩)
      · exact .inr (.inr (.inr ⟨i, j, c, a, guard, id, hij, hc, hopens, ha, hmakes, rfl⟩))
    · exact .inr (.inr (.inl ⟨j, a, ha, hinner⟩))
  · rintro (hold | ⟨guard, hguard, id, hmakes, rfl⟩ | ⟨j, a, ha, hinner⟩ |
      ⟨i, j, c, a, guard, id, hij, hc, hopens, ha, hmakes, rfl⟩)
    · exact .inl hold
    · obtain ⟨j, a, ha, hmakes⟩ := (makes_foldl_iff hflows b).1 hmakes
      exact .inr ⟨j, a, ha, .inl ⟨guard, (hopen j guard).2 (.inl hguard), id, hmakes, rfl⟩⟩
    · exact .inr ⟨j, a, ha, .inr hinner⟩
    · have hguard := (hopen j guard).2 (.inr ⟨i, c, hij, hc, hopens⟩)
      exact .inr ⟨j, a, ha, .inl ⟨guard, hguard, id, hmakes, rfl⟩⟩

end Parts

end FlowBuilder

namespace Node

section Expressions
variable (statement : Text)

theorem moves_writeAll (span : Span) (isCompound isDirect : Bool) (sources : List Nat)
    (names : List String) (b : FlowBuilder) :
    b.Moves (writeAll statement span isCompound isDirect sources names b) := by
  apply FlowBuilder.Moves.foldl
  intro b name
  cases isCompound with
  | false => exact (FlowBuilder.Step.write name span statement .direct sources isDirect).moves
  | true =>
    exact (FlowBuilder.Step.read name span statement .direct).moves.trans
      (FlowBuilder.Step.write name span statement .direct _ isDirect).moves

theorem moves_updateAll (operands : List Node) (b : FlowBuilder) :
    b.Moves (updateAll statement operands b) := by
  apply FlowBuilder.Moves.foldl
  intro b operand
  apply FlowBuilder.Moves.foldl
  intro b name
  exact (FlowBuilder.Step.read name operand.span statement .direct).moves.trans
    (FlowBuilder.Step.write name operand.span statement .direct _ false).moves

theorem moves_readsAll {ns : List Node} {kind : FlowKind}
    (hns : ∀ c ∈ ns, ∀ b : FlowBuilder, b.Moves (reads statement kind c b).2) (b : FlowBuilder) :
    b.Moves (readsAll statement kind ns b).2 := by
  induction ns generalizing b with
  | nil => exact .refl b
  | cons c cs ih =>
    rw [readsAll]
    exact (hns c List.mem_cons_self b).trans (ih (fun d hd => hns d (List.mem_cons_of_mem _ hd)) _)

/-- Going through an expression takes reads and writes only. -/
theorem moves_reads (n : Node) :
    (∀ (kind : FlowKind) (b : FlowBuilder), b.Moves (reads statement kind n b).2) ∧
      ∀ b : FlowBuilder, b.Moves (targetKeys statement n b).2 := by
  induction n with
  | node nodeKind span excerpt children ih =>
    have hall : ∀ ns, ns ⊆ children → ∀ (kind : FlowKind) (b : FlowBuilder),
        b.Moves (readsAll statement kind ns b).2 :=
      fun ns hns kind b => moves_readsAll statement (fun c hc => (ih c (hns hc)).1 kind) b
    constructor
    · intro kind b
      cases nodeKind with
      | identifier name => exact (FlowBuilder.Step.read name span statement kind).moves
      | assignment operator =>
        cases children with
        | nil => exact .refl b
        | cons target values =>
          have hvalues := hall values (List.subset_cons_self target values) .direct b
          have hkeys := (ih target List.mem_cons_self).2 (readsAll statement .direct values b).2
          exact (hvalues.trans hkeys).trans (moves_writeAll statement _ _ _ _ _ _)
      | update operator => exact moves_updateAll statement children b
      | call site =>
        cases children with
        | nil => exact .refl b
        | cons callee arguments =>
          have hcallee : b.Moves
              (if callee.identifier?.isSome then ([], b) else reads statement kind callee b).2 := by
            split
            · exact .refl b
            · exact (ih callee List.mem_cons_self).1 kind b
          exact hcallee.trans (hall arguments (List.subset_cons_self callee arguments) kind _)
      | literal | elementaryType | creation => exact .refl b
      | _ => exact hall children (List.Subset.refl _) kind b
    · intro b
      cases nodeKind with
      | indexAccess =>
        cases children with
        | nil => exact .refl b
        | cons base keys =>
          exact (hall keys (List.subset_cons_self base keys) .direct b).trans
            ((ih base List.mem_cons_self).2 _)
      | memberAccess member =>
        cases children with
        | nil => exact .refl b
        | cons object rest => exact (ih object List.mem_cons_self).2 b
      | _ => exact .refl b

theorem moves_expressions (kind : FlowKind) (ns : List Node) (b : FlowBuilder) :
    b.Moves (readsAll statement kind ns b).2 :=
  moves_readsAll statement (fun c _ => (moves_reads statement c).1 kind) b

end Expressions

end Node

end ContractAtlas
