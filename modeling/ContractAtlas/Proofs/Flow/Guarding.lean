import ContractAtlas.Proofs.Flow.Moves

/-! Conditional flow. What a condition reads guards the later children of its branch or loop, and
flows into just the writes that are made there. -/
namespace ContractAtlas

namespace Node

/-- Branches and loops, whose conditions guard what comes after them. -/
def isGuarding (n : Node) : Bool :=
  match n.kind with
  | .ifStatement | .whileLoop | .forLoop | .doWhileLoop => true
  | _ => false

/-- Statements whose parts the builder goes through one like the other. -/
def hasParts (n : Node) : Bool :=
  match n.kind with
  | .declaration _ | .returnStatement | .ifStatement | .whileLoop | .forLoop | .doWhileLoop
  | .assembly => false
  | _ => true

/-- As a child of a branch or a loop, its reads guard the children after it. -/
def isCondition (n : Node) : Bool := !n.isStatement && !n.isWriteExpression

/-- The builder on its way through a branch or a loop, before the child of number `i`. -/
def beforeChild (n : Node) (b : FlowBuilder) (i : Nat) : FlowBuilder :=
  guardedFlow n.text (n.children.take i) b

/-- On its way through the statement `n` from `b` on, the builder comes to the statement `m` as
`b'`. -/
inductive Visits : Node → FlowBuilder → Node → FlowBuilder → Prop
  | here (n : Node) (b : FlowBuilder) : Visits n b n b
  | guarded {n c m : Node} {b b' : FlowBuilder} {i : Nat} (hn : n.isGuarding = true)
    (hc : n.children[i]? = some c) (hstatement : c.isStatement = true)
    (h : Visits c (n.beforeChild b i) m b') : Visits n b m b'
  | part {n c m : Node} {b b' : FlowBuilder} {i : Nat} (hn : n.hasParts = true)
    (hc : n.children[i]? = some c) (hstatement : c.isStatement = true)
    (h : Visits c (partFlow n.text (n.children.take i) b) m b') : Visits n b m b'

/-- In the branch or loop `n`, to which the builder comes as `b`, the child of number `i` is a
condition that gives back the read `c`, and the write `w` is made in the later child of number
`j`. -/
structure GuardsFrom (n : Node) (b : FlowBuilder) (i j : Nat) (condition : Node) (c w : Nat) :
    Prop where
  branch : n.isGuarding = true
  order : i < j
  later : j < n.children.length
  child : n.children[i]? = some condition
  isCondition : condition.isCondition = true
  read : c ∈ (reads n.text .conditional condition (n.beforeChild b i)).1
  write : (n.beforeChild b j).Makes (n.beforeChild b (j + 1)) w

/-- Some condition of this text gives back the read `c` and guards the write `w`. -/
def Guards (n : Node) (b : FlowBuilder) (c w : Nat) (text : Text) : Prop :=
  ∃ i j condition, n.GuardsFrom b i j condition c w ∧ condition.text = text

theorem Guards.isGuarding {n : Node} {b : FlowBuilder} {c w : Nat} {text : Text}
    (h : n.Guards b c w text) : n.isGuarding = true := by
  obtain ⟨i, j, condition, hfrom, -⟩ := h
  exact hfrom.branch

/-- The edge leads from a condition to a write that it guards, in some branch or loop inside `n`. -/
def Brings (n : Node) (b : FlowBuilder) (e : FlowEdge) : Prop :=
  ∃ m b' c w text, n.Visits b m b' ∧ m.Guards b' c w text ∧ e = FlowBuilder.guardEdge (c, text) w

section Kinds
variable {n : Node}

theorem flow_of_isGuarding (h : n.isGuarding = true) (b : FlowBuilder) :
    flow n b = { guardedFlow n.text n.children b with
      guards := (guardedFlow n.text n.children b).guards.take b.guards.length } := by
  rcases n with ⟨kind, span, excerpt, children⟩
  cases kind with
  | ifStatement | whileLoop | forLoop | doWhileLoop => rfl
  | _ => cases h

theorem flow_of_hasParts (h : n.hasParts = true) (b : FlowBuilder) :
    flow n b = partFlow n.text n.children b := by
  rcases n with ⟨kind, span, excerpt, children⟩
  cases kind with
  | declaration | returnStatement | ifStatement | whileLoop | forLoop | doWhileLoop | assembly =>
    cases h
  | _ => rfl

theorem not_hasParts_of_isGuarding (h : n.isGuarding = true) : n.hasParts = false := by
  rcases n with ⟨kind, span, excerpt, children⟩
  cases kind with
  | ifStatement | whileLoop | forLoop | doWhileLoop => rfl
  | _ => cases h

/-- The other statements have expressions only. -/
theorem moves_flow (hguarding : n.isGuarding = false) (hparts : n.hasParts = false)
    (b : FlowBuilder) :
    b.Moves (flow n b) := by
  rcases n with ⟨kind, span, excerpt, children⟩
  have hreads : ∀ kind, b.Moves (readsAll excerpt.text kind children b).2 := fun kind =>
    moves_readsAll excerpt.text (fun c _ => (moves_reads excerpt.text c).1 kind) b
  cases kind with
  | declaration names =>
    refine (hreads .direct).trans (FlowBuilder.Moves.foldl (fun b name => ?_) names _)
    exact (FlowBuilder.Step.write name span excerpt.text .declaration _ _).moves
  | returnStatement => exact hreads .returned
  | assembly => exact .refl b
  | ifStatement | whileLoop | forLoop | doWhileLoop => cases hguarding
  | _ => cases hparts

theorem not_brings (hguarding : n.isGuarding = false) (hparts : n.hasParts = false)
    (b : FlowBuilder) (e : FlowEdge) : ¬ n.Brings b e := by
  rintro ⟨m, b', c, w, text, hvisits, hguards, -⟩
  cases hvisits with
  | here => exact Bool.false_ne_true (hguarding.symm.trans hguards.isGuarding)
  | guarded hn => exact Bool.false_ne_true (hguarding.symm.trans hn)
  | part hn => exact Bool.false_ne_true (hparts.symm.trans hn)

end Kinds

section Children
variable (statement : Text)

theorem guardedFlow_eq_foldl (ns : List Node) (b : FlowBuilder) :
    guardedFlow statement ns b = ns.foldl (fun b c => guardedFlow statement [c] b) b := by
  induction ns generalizing b with
  | nil => rfl
  | cons c cs ih =>
    rw [List.foldl_cons, ← ih]
    simp only [guardedFlow]
    split
    · rfl
    · split <;> rfl

theorem partFlow_eq_foldl (ns : List Node) (b : FlowBuilder) :
    partFlow statement ns b = ns.foldl (fun b c => partFlow statement [c] b) b := by
  induction ns generalizing b with
  | nil => rfl
  | cons c cs ih =>
    rw [List.foldl_cons, ← ih]
    simp only [partFlow]

theorem beforeChild_succ {n c : Node} {i : Nat} (hc : n.children[i]? = some c) (b : FlowBuilder) :
    n.beforeChild b (i + 1) = guardedFlow n.text [c] (n.beforeChild b i) := by
  rw [beforeChild, beforeChild, List.take_add_one, hc, Option.toList_some, guardedFlow_eq_foldl,
    List.foldl_concat, ← guardedFlow_eq_foldl]

theorem prefix_guards_guardedFlow {ns : List Node}
    (hns : ∀ c ∈ ns, ∀ b : FlowBuilder, (flow c b).guards = b.guards) (b : FlowBuilder) :
    b.guards <+: (guardedFlow statement ns b).guards := by
  induction ns generalizing b with
  | nil => exact List.prefix_rfl
  | cons c cs ih =>
    obtain ⟨hc, hcs⟩ := List.forall_mem_cons.1 hns
    have hreads := fun kind => ((moves_reads statement c).1 kind b).guards_eq
    rw [guardedFlow]
    split
    · exact hc b ▸ ih hcs (flow c b)
    · split
      · exact hreads .direct ▸ ih hcs _
      · refine List.IsPrefix.trans ?_ (ih hcs _)
        exact hreads .conditional ▸ List.prefix_append _ _

theorem guards_partFlow {ns : List Node}
    (hns : ∀ c ∈ ns, ∀ b : FlowBuilder, (flow c b).guards = b.guards) (b : FlowBuilder) :
    (partFlow statement ns b).guards = b.guards := by
  induction ns generalizing b with
  | nil => rfl
  | cons c cs ih =>
    obtain ⟨hc, hcs⟩ := List.forall_mem_cons.1 hns
    rw [partFlow, ih hcs]
    split
    · exact hc b
    · exact ((moves_reads statement c).1 .direct b).guards_eq

end Children

/-- Behind any statement the guards are those before it: what a branch or a loop adds stands behind
them, and is cut off again. -/
theorem guards_flow (n : Node) (b : FlowBuilder) : (flow n b).guards = b.guards := by
  induction n generalizing b with
  | node kind span excerpt children ih =>
    cases hguarding : isGuarding ⟨kind, span, excerpt, children⟩ with
    | true =>
      rw [flow_of_isGuarding hguarding]
      exact (List.prefix_iff_eq_take.1 (prefix_guards_guardedFlow _ ih b)).symm
    | false =>
      cases hparts : hasParts ⟨kind, span, excerpt, children⟩ with
      | true =>
        rw [flow_of_hasParts hparts]
        exact guards_partFlow _ ih b
      | false => exact (moves_flow hguarding hparts b).guards_eq

section Brought
variable {n c : Node}

theorem mem_guards_guardedFlow (statement : Text) (b : FlowBuilder) (guard : Nat × Text) :
    guard ∈ (guardedFlow statement [c] b).guards ↔ guard ∈ b.guards ∨
      c.isCondition = true ∧ guard.1 ∈ (reads statement .conditional c b).1 ∧ guard.2 = c.text := by
  have hreads := fun kind => ((moves_reads statement c).1 kind b).guards_eq
  simp only [guardedFlow, isCondition]
  split
  · rename_i hstatement
    rw [guards_flow, hstatement]
    simp
  · rename_i hstatement
    split
    · rename_i hwrite
      rw [hreads, hwrite]
      simp
    · rename_i hwrite
      rw [hreads, List.mem_append, List.mem_map, Bool.eq_false_iff.2 hstatement,
        Bool.eq_false_iff.2 hwrite]
      refine or_congr_right ⟨?_, ?_⟩
      · rintro ⟨id, hid, rfl⟩
        exact ⟨rfl, hid, rfl⟩
      · rintro ⟨-, hid, htext⟩
        exact ⟨guard.1, hid, Prod.ext rfl htext.symm⟩

theorem flows_guardedChild (hc : ∀ b : FlowBuilder, b.Flows (c.Brings b) (flow c b))
    (statement : Text) (b : FlowBuilder) :
    b.Flows (fun e => c.isStatement = true ∧ c.Brings b e) (guardedFlow statement [c] b) := by
  have hreads := fun kind => ((moves_reads statement c).1 kind b).flows
  simp only [guardedFlow]
  split
  · rename_i hstatement
    exact (hc b).congr fun e => (and_iff_right hstatement).symm
  · rename_i hstatement
    have hnone : ∀ e, False ↔ c.isStatement = true ∧ c.Brings b e :=
      fun e => ⟨False.elim, fun h => hstatement h.1⟩
    split
    · exact (hreads .direct).congr hnone
    · have h := (hreads .conditional).congr hnone
      exact ⟨h.writes, h.edges⟩

theorem flows_part (hc : ∀ b : FlowBuilder, b.Flows (c.Brings b) (flow c b)) (statement : Text)
    (b : FlowBuilder) :
    b.Flows (fun e => c.isStatement = true ∧ c.Brings b e) (partFlow statement [c] b) := by
  simp only [partFlow]
  split
  · rename_i hstatement
    exact (hc b).congr fun e => (and_iff_right hstatement).symm
  · rename_i hstatement
    exact ((moves_reads statement c).1 .direct b).flows.congr
      fun e => ⟨False.elim, fun h => hstatement h.1⟩

/-- What a branch or a loop brings comes from its child statements or from its own conditions. -/
theorem brings_of_isGuarding (h : n.isGuarding = true) (b : FlowBuilder) (e : FlowEdge) :
    n.Brings b e ↔
      (∃ j, ∃ c : Node, n.children[j]? = some c ∧ c.isStatement = true ∧
        c.Brings (n.beforeChild b j) e) ∨
      ∃ i j c later guard id, i < j ∧ n.children[i]? = some c ∧
        (c.isCondition = true ∧ guard.1 ∈ (reads n.text .conditional c (n.beforeChild b i)).1 ∧
          guard.2 = c.text) ∧ n.children[j]? = some later ∧
        (n.beforeChild b j).Makes (guardedFlow n.text [later] (n.beforeChild b j)) id ∧
        e = FlowBuilder.guardEdge guard id := by
  constructor
  · rintro ⟨m, b', c, w, text, hvisits, hguards, rfl⟩
    cases hvisits with
    | here =>
      obtain ⟨i, j, condition, hfrom, rfl⟩ := hguards
      have hlater := List.getElem?_eq_getElem hfrom.later
      have hmakes := hfrom.write
      rw [beforeChild_succ hlater] at hmakes
      exact .inr ⟨i, j, condition, _, (c, condition.text), w, hfrom.order, hfrom.child,
        ⟨hfrom.isCondition, hfrom.read, rfl⟩, hlater, hmakes, rfl⟩
    | guarded hn hc hstatement hinner =>
      exact .inl ⟨_, _, hc, hstatement, m, b', c, w, text, hinner, hguards, rfl⟩
    | part hn => exact absurd hn (Bool.eq_false_iff.1 (not_hasParts_of_isGuarding h))
  · rintro (⟨j, c, hc, hstatement, m, b', c', w, text, hvisits, hguards, rfl⟩ |
      ⟨i, j, c, later, guard, id, hij, hi, ⟨hcondition, hread, htext⟩, hlater, hmakes, rfl⟩)
    · exact ⟨m, b', c', w, text, .guarded h hc hstatement hvisits, hguards, rfl⟩
    · have hwrite : (n.beforeChild b j).Makes (n.beforeChild b (j + 1)) id := by
        rw [beforeChild_succ hlater]
        exact hmakes
      have hfrom : n.GuardsFrom b i j c guard.1 id :=
        ⟨h, hij, (List.getElem?_eq_some_iff.1 hlater).1, hi, hcondition, hread, hwrite⟩
      exact ⟨n, b, guard.1, id, guard.2, .here n b, ⟨i, j, c, hfrom, htext.symm⟩, rfl⟩

/-- What another statement with parts brings comes from those of them that are statements. -/
theorem brings_of_hasParts (h : n.hasParts = true) (b : FlowBuilder) (e : FlowEdge) :
    n.Brings b e ↔ ∃ j, ∃ c : Node, n.children[j]? = some c ∧ c.isStatement = true ∧
      c.Brings (partFlow n.text (n.children.take j) b) e := by
  constructor
  · rintro ⟨m, b', c, w, text, hvisits, hguards, rfl⟩
    cases hvisits with
    | here => exact absurd h (Bool.eq_false_iff.1 (not_hasParts_of_isGuarding hguards.isGuarding))
    | guarded hn => exact absurd h (Bool.eq_false_iff.1 (not_hasParts_of_isGuarding hn))
    | part hn hc hstatement hinner =>
      exact ⟨_, _, hc, hstatement, m, b', c, w, text, hinner, hguards, rfl⟩
  · rintro ⟨j, c, hc, hstatement, m, b', c', w, text, hvisits, hguards, rfl⟩
    exact ⟨m, b', c', w, text, .part h hc hstatement hvisits, hguards, rfl⟩

end Brought

/-- The conditional edges that a statement adds: from the guards before it to the writes in it, and
from the conditions in it to the writes that they guard. -/
theorem flows_flow (n : Node) (b : FlowBuilder) : b.Flows (n.Brings b) (flow n b) := by
  induction n generalizing b with
  | node kind span excerpt children ih =>
    generalize hn : Node.mk kind span excerpt children = n
    have hchildren : n.children = children := by rw [← hn]
    rw [← hchildren] at ih
    cases hguarding : n.isGuarding with
    | true =>
      -- its conditions open guards for the children after them
      have h := FlowBuilder.flows_foldl
        (fun c hc b => flows_guardedChild (fun b => ih c hc b) n.text b)
        (fun c _ b guard => mem_guards_guardedFlow n.text b guard) b
      simp only [← guardedFlow_eq_foldl] at h
      rw [flow_of_isGuarding hguarding]
      have hbrings := h.congr fun e => (brings_of_isGuarding hguarding b e).symm
      exact ⟨hbrings.writes, hbrings.edges⟩
    | false =>
      cases hparts : n.hasParts with
      | true =>
        -- its parts open none
        have h := FlowBuilder.flows_foldl
          (fun c hc b => flows_part (fun b => ih c hc b) n.text b)
          (fun c _ b guard => by
            rw [guards_partFlow n.text fun c _ => c.guards_flow]
            exact (or_iff_left (fun h : False => h)).symm) b
        simp only [← partFlow_eq_foldl] at h
        rw [flow_of_hasParts hparts]
        refine h.congr fun e => ?_
        rw [brings_of_hasParts hparts]
        simp
      | false =>
        exact (moves_flow hguarding hparts b).flows.congr
          fun e => ⟨False.elim, not_brings hguarding hparts b e⟩

end Node

namespace Function
variable {f : Function}

/-- In some branch or loop of the body, a condition of this text gives back the read `c`, and the
write `w` is made in a later child. -/
def Guards (f : Function) (c w : Nat) (text : Text) : Prop :=
  ∃ body ∈ f.body, ∃ n b, body.Visits f.parameterFlow n b ∧ n.Guards b c w text

theorem parameterFlow_edges (f : Function) :
    f.parameterFlow.graph.edges = [] ∧ f.parameterFlow.guards = [] := by
  rw [parameterFlow]
  induction f.parameterNames using List.reverseRecOn with
  | nil => exact ⟨rfl, rfl⟩
  | append_singleton names name ih =>
    rw [List.foldl_concat]
    exact ih

theorem mem_flowGraph_iff {e : FlowEdge} (he : e.kind = .conditional) :
    e ∈ f.flowGraph.edges ↔
      ∃ c w text, f.Guards c w text ∧ e = FlowBuilder.guardEdge (c, text) w := by
  obtain ⟨hedges, hguards⟩ := f.parameterFlow_edges
  rw [flowGraph]
  cases hbody : f.body with
  | none =>
    refine iff_of_false (hedges ▸ List.not_mem_nil) ?_
    rintro ⟨c, w, text, ⟨body, hmem, -⟩, -⟩
    exact Option.some_ne_none body (hmem.symm.trans hbody)
  | some body =>
    have hnone : ¬ f.parameterFlow.GuardsInto (body.flow f.parameterFlow) e := by
      rintro ⟨guard, hguard, -⟩
      exact List.not_mem_nil (hguards ▸ hguard)
    have hold : e ∉ f.parameterFlow.graph.edges := hedges ▸ List.not_mem_nil
    rw [(body.flows_flow f.parameterFlow).edges e he, or_iff_right hold, or_iff_right hnone]
    constructor
    · rintro ⟨n, b, c, w, text, hvisits, hn, rfl⟩
      exact ⟨c, w, text, ⟨body, hbody, n, b, hvisits, hn⟩, rfl⟩
    · rintro ⟨c, w, text, ⟨body', hbody', n, b, hvisits, hn⟩, rfl⟩
      cases hbody.symm.trans hbody'
      exact ⟨n, b, c, w, text, hvisits, hn, rfl⟩

theorem flowGraph_simple (f : Function) :
    (f.flowGraph.edges.map fun e => (e.source, e.target)).Nodup := f.defUse_flowGraph.simple

/-- A read flows conditionally into a write exactly if it is one of a condition that guards the
write, in some branch or loop of the body; then by one edge, which has the text of the condition.
Behind any statement the guards are those before it. -/
theorem conditional_edges_exact (f : Function) :
    (∀ c w, (∃ e ∈ f.flowGraph.edges, e.kind = .conditional ∧ e.source = c ∧ e.target = w) ↔
      ∃ text, f.Guards c w text) ∧
    (∀ c w text, f.Guards c w text →
      f.flowGraph.edges.filter (fun e => e.kind = .conditional ∧ e.source = c ∧ e.target = w) =
        [{ source := c, target := w, kind := .conditional, condition := some text }]) ∧
    ∀ (n : Node) (b : FlowBuilder), (n.flow b).guards = b.guards := by
  refine ⟨fun c w => ⟨?_, ?_⟩, fun c w text h => ?_, Node.guards_flow⟩
  · rintro ⟨e, he, hkind, rfl, rfl⟩
    obtain ⟨c, w, text, hguards, rfl⟩ := (mem_flowGraph_iff hkind).1 he
    exact ⟨text, hguards⟩
  · rintro ⟨text, hguards⟩
    exact ⟨_, (mem_flowGraph_iff rfl).2 ⟨c, w, text, hguards, rfl⟩, rfl, rfl, rfl⟩
  · have hedge := (mem_flowGraph_iff rfl).2 ⟨c, w, text, h, rfl⟩
    have hsimple := f.flowGraph_simple
    apply List.perm_singleton.1
    refine (List.perm_ext_iff_of_nodup (hsimple.of_map.filter _) (List.nodup_singleton _)).2
      fun e => ?_
    rw [List.mem_filter, decide_eq_true_eq, List.mem_singleton]
    constructor
    · rintro ⟨he, -, rfl, rfl⟩
      exact List.inj_on_of_nodup_map hsimple he hedge rfl
    · rintro rfl
      exact ⟨hedge, rfl, rfl, rfl⟩

end Function

namespace Sample

/-- A variable, read or written. -/
def variableNode (name : String) : Node :=
  { kind := .identifier name, excerpt := .whole name.toList }

/-- The assignment of a value to a variable. -/
def assigning (target : String) (value : Node) : Node :=
  { kind := .assignment "=", children := [variableNode target, value] }

/-- The same as a statement. -/
def assigningStatement (target : String) (value : Node) : Node :=
  { kind := .expressionStatement, children := [assigning target value] }

private def comparison (left right : String) : Node :=
  { kind := .binary ">", excerpt := .whole (left ++ " > " ++ right).toList,
    children := [variableNode left, variableNode right] }

private def copying (target source : String) : Node :=
  assigningStatement target (variableNode source)

/-- A loop that copies `x` to `y`. -/
def innerLoop : Node :=
  { kind := .whileLoop, children := [comparison "x" "b", copying "y" "x"] }

/-- A branch that assigns to `x` and holds the loop. -/
def branch : Node :=
  { kind := .ifStatement,
    children := [comparison "a" "b", { kind := .block, children := [copying "x" "a", innerLoop] }] }

/-- The branch with an assignment behind it. -/
def branching : Function :=
  { name := "f", body := some { kind := .block, children := [branch, copying "z" "y"] } }

end Sample

namespace Function

/-- In the sample the condition of the loop guards the write of `y`, number 7, and nothing guards
that of `z`, number 9. -/
theorem conditional_edges_exact_sample :
    Sample.branching.Guards 4 7 "x > b".toList ∧
      Sample.branching.flowGraph.edges.filter
          (fun e => e.kind = .conditional ∧ e.source = 4 ∧ e.target = 7) =
        [{ source := 4, target := 7, kind := .conditional, condition := some "x > b".toList }] ∧
      (∃ text, Sample.branching.Guards 0 7 text) ∧ ¬ ∃ text, Sample.branching.Guards 0 9 text := by
  have hguards : Sample.branching.Guards 4 7 "x > b".toList := by
    refine ⟨_, rfl, Sample.innerLoop, _, .part (i := 0) rfl rfl rfl (.guarded (i := 1) rfl rfl rfl
      (.part (i := 1) rfl rfl rfl (.here _ _))), 0, 1, _,
      ⟨rfl, by decide, by decide, rfl, rfl, ?_, ?_, ?_⟩, ?_⟩
    · decide +kernel
    · decide +kernel
    · decide +kernel
    · decide +kernel
  obtain ⟨hexact, honce, -⟩ := conditional_edges_exact Sample.branching
  refine ⟨hguards, honce 4 7 _ hguards, (hexact 0 7).1 (by decide +kernel), fun h => ?_⟩
  exact absurd ((hexact 0 9).2 h) (by decide +kernel)

end Function

end ContractAtlas
