import ContractAtlas.Proofs.Flow.Guarding
import ContractAtlas.Proofs.Flow.Parts
import ContractAtlas.Proofs.Flow.Search

/-! The flow of values into variables. What the values of an assignment or a declaration give back
flows into each variable that it writes. Reads in an assignment or an update inside a value are not
given back, so they get there only if the variable written inside is read again. -/
namespace ContractAtlas

namespace FlowGraph
variable {g : FlowGraph} {p : FlowPoint} {edges : List FlowEdge} {id : Nat}

theorem IsWrite.lt_length (h : g.IsWrite id) : id < g.points.length := by
  obtain ⟨p, hp, -⟩ := h
  exact lt_of_mem_point? hp

instance (g : FlowGraph) (id : Nat) : Decidable (g.Reads id) :=
  decidable_of_iff ((g.point? id).any FlowPoint.isRead = true) (Option.any_eq_true _ _)

/-- Into a new point flow the sources of the edges that come with it. -/
theorem joined_withPoint_self (hold : ∀ e ∈ g.edges, e.target < g.points.length)
    (hnew : ∀ e ∈ edges, e.target = g.points.length) :
    (g.withPoint p edges).Joined id g.points.length ↔ id ∈ edges.map FlowEdge.source := by
  rw [List.mem_map]
  constructor
  · rintro ⟨e, he, hsource, htarget⟩
    rcases List.mem_append.1 he with he | he
    · exact absurd htarget (Nat.ne_of_lt (hold e he))
    · exact ⟨e, he, hsource⟩
  · rintro ⟨e, he, hsource⟩
    exact ⟨e, List.mem_append_right _ he, hsource, hnew e he⟩

end FlowGraph

namespace FlowBuilder
variable {b b' : FlowBuilder} {sources : List Nat}

/-- Edges lead into points that are there, and guards are such points. -/
structure Settled (b : FlowBuilder) : Prop where
  targets : ∀ e ∈ b.graph.edges, e.target < b.graph.points.length
  guards : ∀ guard ∈ b.guards, guard.1 < b.graph.points.length

theorem Sound.settled (h : b.Sound) : b.Settled :=
  ⟨fun e he => (h.graph.ordered e he).2, fun guard hguard => (h.guards guard hguard).lt_length⟩

theorem Settled.withPoint (h : b.Settled) {p : FlowPoint} {edges : List FlowEdge}
    {lastWrites : List (String × Nat)} (hedges : ∀ e ∈ edges, e.target = b.graph.points.length) :
    { b with graph := b.graph.withPoint p edges, lastWrites }.Settled where
  targets := by
    intro e he
    rw [FlowGraph.length_withPoint]
    rcases List.mem_append.1 he with he | he
    · exact Nat.lt_succ_of_lt (h.targets e he)
    · exact Nat.lt_succ_of_le (Nat.le_of_eq (hedges e he))
  guards := by
    intro guard hguard
    rw [FlowGraph.length_withPoint]
    exact Nat.lt_succ_of_lt (h.guards guard hguard)

theorem Step.settled (h : b.Step b') (hb : b.Settled) : b'.Settled := by
  cases h with
  | read name span statement kind =>
    rw [read_eq]
    exact hb.withPoint fun e he => target_of_mem_readEdges he
  | write name span statement kind sources isDirect =>
    rw [write_eq]
    exact hb.withPoint fun e he => target_of_mem_writeEdges he

theorem Moves.settled (h : b.Moves b') (hb : b.Settled) : b'.Settled := by
  induction h with
  | refl => exact hb
  | tail _ hstep ih => exact hstep.settled ih

/-- Of the points of `b`, the sources and the guards and no others flow into each write that is made
on the way to `b'`. -/
def Delivers (b : FlowBuilder) (sources : List Nat) (b' : FlowBuilder) : Prop :=
  ∀ w, b.Makes b' w → ∀ s < b.graph.points.length,
    (b'.graph.Joined s w ↔ s ∈ sources ∨ s ∈ b.guards.map Prod.fst)

section Write
variable (name : String) (span : Span) (statement : Text) (kind : FlowKind) (isDirect : Bool)

theorem joined_write_iff (h : b.Settled) {s : Nat} :
    (b.write name span statement kind sources isDirect).graph.Joined s b.graph.points.length ↔
      s ∈ sources ∨ s ∈ b.guards.map Prod.fst := by
  rw [write_eq, FlowGraph.joined_withPoint_self h.targets fun e he => target_of_mem_writeEdges he,
    map_source_writeEdges, List.mem_append]

theorem delivers_write (h : b.Settled) :
    b.Delivers sources (b.write name span statement kind sources isDirect) := by
  intro w hmakes s _
  rw [(makes_write_iff name span statement kind sources isDirect).1 hmakes]
  exact joined_write_iff name span statement kind isDirect h

/-- The variable of a compound assignment is one more source, and a new point. -/
theorem delivers_read_write (h : b.Settled) :
    b.Delivers sources ((b.read name span statement kind).2.write name span statement kind
      (sources ++ [(b.read name span statement kind).1]) isDirect) := by
  intro w hmakes s hs
  have hread := Step.read (b := b) name span statement kind
  have hself : s ∉ [(b.read name span statement kind).1] := by
    rw [read_eq, List.mem_singleton]
    exact Nat.ne_of_lt hs
  have hwrite : (b.read name span statement kind).2.Makes _ w :=
    ⟨fun hold => hmakes.1 ((isWrite_read name span statement kind).1 hold), hmakes.2⟩
  rw [(makes_write_iff ..).1 hwrite, joined_write_iff name span statement kind isDirect
    (hread.settled h), hread.guards_eq, List.mem_append, or_iff_left hself]

end Write

theorem delivers_foldl {α : Type} {step : FlowBuilder → α → FlowBuilder}
    (hmoves : ∀ (b : FlowBuilder) a, b.Moves (step b a))
    (hstep : ∀ (b : FlowBuilder) a, b.Settled → b.Delivers sources (step b a)) (as : List α)
    (h : b.Settled) : b.Delivers sources (as.foldl step b) := by
  induction as generalizing b with
  | nil => exact fun w hmakes => absurd hmakes (b.not_makes_self w)
  | cons a as ih =>
    have hfirst := hmoves b a
    have hlater := Moves.foldl hmoves as (step b a)
    intro w hmakes s hs
    rcases (makes_trans_iff hfirst.flows.writes hlater.flows.writes).1 hmakes with hmakes | hmakes
    · -- the later writes leave what flows into this one
      rw [List.foldl_cons, hlater.grows.joined_iff hmakes.2.lt_length]
      exact hstep b a h w hmakes s hs
    · rw [← hfirst.guards_eq]
      exact ih (hfirst.settled h) w hmakes s (Nat.lt_of_lt_of_le hs hfirst.grows.length_le)

end FlowBuilder

namespace Node
variable {b : FlowBuilder} {sources : List Nat}

theorem delivers_writeAll (statement : Text) (span : Span) (isCompound isDirect : Bool)
    (names : List String) (h : b.Settled) :
    b.Delivers sources (writeAll statement span isCompound isDirect sources names b) := by
  refine FlowBuilder.delivers_foldl (fun b name => ?_) (fun b name hb => ?_) names h
  · exact moves_writeAll statement span isCompound isDirect sources [name] b
  · cases isCompound with
    | false => exact FlowBuilder.delivers_write name span statement .direct isDirect hb
    | true => exact FlowBuilder.delivers_read_write name span statement .direct isDirect hb

/-- What the builder takes the children for, if they are all values. -/
def valueKind? (n : Node) : Option FlowKind :=
  match n.kind with
  | .declaration _ => some .direct
  | .returnStatement => some .returned
  | _ => none

/-- On its way through the statement `n` from `b` on, the builder comes to an expression of `n` as
`b'`. -/
inductive Opens : Node → FlowBuilder → FlowPart → FlowBuilder → Prop
  | value {n c : Node} {b : FlowBuilder} {i : Nat} {kind : FlowKind} (hn : n.valueKind? = some kind)
    (hc : n.children[i]? = some c) :
    Opens n b (.expression kind c) (readsAll n.text kind (n.children.take i) b).2
  | guarded {n c : Node} {b : FlowBuilder} {i : Nat} (hn : n.isGuarding = true)
    (hc : n.children[i]? = some c) (hstatement : c.isStatement = false) :
    Opens n b (.expression (if c.isWriteExpression then .direct else .conditional) c)
      (n.beforeChild b i)
  | part {n c : Node} {b : FlowBuilder} {i : Nat} (hn : n.hasParts = true)
    (hc : n.children[i]? = some c) (hstatement : c.isStatement = false) :
    Opens n b (.expression .direct c) (partFlow n.text (n.children.take i) b)

section Statements
variable {n m c : Node} {b' : FlowBuilder} {q : FlowPart} {i : Nat}

theorem moves_of_valueKind? {kind : FlowKind} (hn : n.valueKind? = some kind) (b : FlowBuilder) :
    (readsAll n.text kind n.children b).2.Moves (flow n b) := by
  rcases n with ⟨nodeKind, span, excerpt, children⟩
  cases nodeKind with
  | declaration names =>
    cases hn
    refine FlowBuilder.Moves.foldl (fun b name => ?_) names _
    exact (FlowBuilder.Step.write name span excerpt.text .declaration _ _).moves
  | returnStatement =>
    cases hn
    exact .refl _
  | _ => cases hn

theorem grows_guardedFlow (statement : Text) {ns : List Node}
    (hns : ∀ c ∈ ns, ∀ b : FlowBuilder, b.graph.Grows (flow c b).graph) (b : FlowBuilder) :
    b.graph.Grows (guardedFlow statement ns b).graph := by
  induction ns generalizing b with
  | nil => exact .refl _
  | cons c cs ih =>
    obtain ⟨hc, hcs⟩ := List.forall_mem_cons.1 hns
    have hreads := fun kind => ((moves_reads statement c).1 kind b).grows
    rw [guardedFlow]
    split
    · exact (hc b).trans (ih hcs _)
    · split
      · exact (hreads .direct).trans (ih hcs _)
      · refine FlowGraph.Grows.trans ?_ (ih hcs _)
        exact hreads .conditional

theorem grows_partFlow (statement : Text) {ns : List Node}
    (hns : ∀ c ∈ ns, ∀ b : FlowBuilder, b.graph.Grows (flow c b).graph) (b : FlowBuilder) :
    b.graph.Grows (partFlow statement ns b).graph := by
  induction ns generalizing b with
  | nil => exact .refl _
  | cons c cs ih =>
    obtain ⟨hc, hcs⟩ := List.forall_mem_cons.1 hns
    rw [partFlow]
    refine FlowGraph.Grows.trans ?_ (ih hcs _)
    split
    · exact hc b
    · exact ((moves_reads statement c).1 .direct b).grows

theorem grows_flow (n : Node) (b : FlowBuilder) : b.graph.Grows (flow n b).graph := by
  induction n generalizing b with
  | node kind span excerpt children ih =>
    cases hguarding : isGuarding ⟨kind, span, excerpt, children⟩ with
    | true =>
      rw [flow_of_isGuarding hguarding]
      exact grows_guardedFlow _ ih b
    | false =>
      cases hparts : hasParts ⟨kind, span, excerpt, children⟩ with
      | true =>
        rw [flow_of_hasParts hparts]
        exact grows_partFlow _ ih b
      | false => exact (moves_flow hguarding hparts b).grows

/-- Going through children one by one, the builder has been through the earlier ones and one of them
when it comes to the later ones. -/
theorem through_split {through : List Node → FlowBuilder → FlowBuilder}
    (hthrough : ∀ ns b, through ns b = ns.foldl (fun b c => through [c] b) b) {ns : List Node}
    (hc : ns[i]? = some c) (b : FlowBuilder) :
    through ns b = through (ns.drop (i + 1)) (through [c] (through (ns.take i) b)) := by
  obtain ⟨hi, rfl⟩ := List.getElem?_eq_some_iff.1 hc
  have hsplit : through ns b = through (ns.take i ++ ns[i] :: ns.drop (i + 1)) b := by
    rw [List.getElem_cons_drop, List.take_append_drop]
  rw [hsplit, hthrough (_ ++ _), List.foldl_append, List.foldl_cons, ← hthrough, ← hthrough]

theorem grows_behind_guarded (hn : n.isGuarding = true) (hc : n.children[i]? = some c)
    (b : FlowBuilder) :
    (guardedFlow n.text [c] (n.beforeChild b i)).graph.Grows (flow n b).graph := by
  rw [flow_of_isGuarding hn, through_split (guardedFlow_eq_foldl n.text) hc b]
  exact grows_guardedFlow n.text (fun c _ => c.grows_flow) _

theorem grows_behind_part (hn : n.hasParts = true) (hc : n.children[i]? = some c)
    (b : FlowBuilder) :
    (partFlow n.text [c] (partFlow n.text (n.children.take i) b)).graph.Grows (flow n b).graph := by
  rw [flow_of_hasParts hn, through_split (partFlow_eq_foldl n.text) hc b]
  exact grows_partFlow n.text (fun c _ => c.grows_flow) _

theorem sound_beforeChild (h : b.Sound) : (n.beforeChild b i).Sound :=
  (enters_guardedFlow n.text (fun c _ _ hb => c.advances_flow hb) h).sound

theorem sound_beforePart (h : b.Sound) : (partFlow n.text (n.children.take i) b).Sound :=
  (advances_partFlow n.text (fun c _ _ hb => c.advances_flow hb) h).sound

theorem Visits.sound (h : n.Visits b m b') (hb : b.Sound) : b'.Sound := by
  induction h with
  | here => exact hb
  | guarded _ _ _ _ ih => exact ih (sound_beforeChild hb)
  | part _ _ _ _ ih => exact ih (sound_beforePart hb)

/-- Behind the statement that the builder comes to, the graph grows by what is left of the one
around. -/
theorem Visits.grows (h : n.Visits b m b') : (flow m b').graph.Grows (flow n b).graph := by
  induction h with
  | here => exact .refl _
  | @guarded n c m b b' i hn hc hstatement _ ih =>
    have hbehind := grows_behind_guarded hn hc b
    simp only [guardedFlow, if_pos hstatement] at hbehind
    exact ih.trans hbehind
  | @part n c m b b' i hn hc hstatement _ ih =>
    have hbehind := grows_behind_part hn hc b
    rw [partFlow, partFlow, if_pos hstatement] at hbehind
    exact ih.trans hbehind

theorem Opens.settled (h : n.Opens b q b') (hb : b.Sound) : b'.Settled := by
  cases h with
  | value => exact (moves_expressions n.text _ _ b).settled hb.settled
  | guarded => exact (sound_beforeChild hb).settled
  | part => exact (sound_beforePart hb).settled

theorem Opens.grows (h : n.Opens b q b') : (q.run n.text b').2.graph.Grows (flow n b).graph := by
  cases h with
  | @value c _ i kind hn hc =>
    have hpart : (n.children.map (FlowPart.expression kind))[i]? = some (.expression kind c) := by
      rw [List.getElem?_map, hc, Option.map_some]
    have hlater := FlowPart.moves_later n.text hpart b
    rw [← List.map_take, FlowPart.runAll_map, FlowPart.runAll_map] at hlater
    exact (hlater.trans (moves_of_valueKind? hn b)).grows
  | @guarded c _ i hn hc hstatement =>
    have hbehind := grows_behind_guarded hn hc b
    simp only [guardedFlow, if_neg (Bool.eq_false_iff.1 hstatement)] at hbehind
    split
    · rename_i hwrite
      rw [if_pos hwrite] at hbehind
      exact hbehind
    · rename_i hwrite
      rw [if_neg hwrite] at hbehind
      exact hbehind
  | @part c _ i hn hc hstatement =>
    have hbehind := grows_behind_part hn hc b
    rw [partFlow, partFlow, if_neg (Bool.eq_false_iff.1 hstatement)] at hbehind
    exact hbehind

end Statements

theorem delivers_assignment {n target : Node} {values : List Node} {operator : String}
    (hn : n.kind = .assignment operator) (hchildren : n.children = target :: values)
    (statement : Text) (kind : FlowKind) (h : b.Settled) :
    (targetKeys statement target (readsAll statement .direct values b).2).2.Delivers
      ((readsAll statement .direct values b).1 ++
        (targetKeys statement target (readsAll statement .direct values b).2).1)
      (reads statement kind n b).2 := by
  rcases n with ⟨nodeKind, span, excerpt, children⟩
  cases hn
  cases hchildren
  have hvalues := moves_expressions statement .direct values b
  have hkeys := (moves_reads statement target).2 (readsAll statement .direct values b).2
  exact delivers_writeAll statement _ _ _ _ ((hvalues.trans hkeys).settled h)

theorem delivers_declaration {n : Node} {names : List String} (hn : n.kind = .declaration names)
    (h : b.Settled) : (readsAll n.text .direct n.children b).2.Delivers
      (readsAll n.text .direct n.children b).1 (flow n b) := by
  rcases n with ⟨kind, span, excerpt, children⟩
  cases hn
  have hvalues := moves_expressions excerpt.text .direct children b
  refine FlowBuilder.delivers_foldl (fun b name => ?_) (fun b name hb => ?_) names
    (hvalues.settled h)
  · exact (FlowBuilder.Step.write name span excerpt.text .declaration _ _).moves
  · exact FlowBuilder.delivers_write name span excerpt.text .declaration _ hb

end Node

/-- An assignment or a declaration as the builder goes through it: it comes to the values as
`before`, and to the writes, behind the values and the keys of the target, as `ready`. -/
structure Assignment where
  statement : Text
  values : List Node
  before : FlowBuilder
  ready : FlowBuilder
  after : FlowBuilder

namespace Assignment
variable {a : Assignment} {g : FlowGraph} {r s w : Nat}

def ofExpression (statement : Text) (kind : FlowKind) (n target : Node) (values : List Node)
    (b : FlowBuilder) : Assignment where
  statement := statement
  values := values
  before := b
  ready := (Node.targetKeys statement target (Node.readsAll statement .direct values b).2).2
  after := (Node.reads statement kind n b).2

def ofDeclaration (n : Node) (b : FlowBuilder) : Assignment where
  statement := n.text
  values := n.children
  before := b
  ready := (Node.readsAll n.text .direct n.children b).2
  after := n.flow b

/-- What the values give back, and the builder behind them. -/
def given (a : Assignment) : List Nat × FlowBuilder :=
  Node.readsAll a.statement .direct a.values a.before

/-- The read of this number is made in the values, at any depth. -/
def Reads (a : Assignment) (r : Nat) : Prop :=
  a.before.graph.points.length ≤ r ∧ a.given.2.graph.Reads r

/-- The write of this number is one of the assignment itself. -/
def Writes (a : Assignment) (w : Nat) : Prop := a.ready.Makes a.after w

instance (a : Assignment) (r : Nat) : Decidable (a.Reads r) := inferInstanceAs (Decidable (_ ∧ _))

instance (a : Assignment) (w : Nat) : Decidable (a.Writes w) :=
  inferInstanceAs (Decidable (¬ _ ∧ _))

/-- The point of this number is made in an assignment or an update inside a value. -/
def Nested (a : Assignment) (r : Nat) : Prop :=
  FlowPart.BuriesAmong a.statement (a.values.map (.expression .direct)) a.before r

theorem mem_given_iff : r ∈ a.given.1 ↔ a.Reads r ∧ ¬ a.Nested r := by
  rw [given, ← FlowPart.runAll_map, FlowPart.mem_runAll_iff fun q _ => q.mem_run_iff,
    FlowPart.runAll_map, Reads, given, Nested, and_assoc]

/-- Values without any assignment or update in them have no nested reads. -/
theorem not_nested (h : ∀ v ∈ a.values, ∀ m ∈ v.descendants, m.isWriteExpression = false) :
    ¬ a.Nested r := by
  rintro ⟨i, q, hq, p, b, hvisits, hp, -⟩
  obtain ⟨v, hv, rfl⟩ := List.mem_map.1 (List.mem_of_getElem? hq)
  have hnode := h v hv p.node hvisits.node_mem
  cases p with
  | expression kind n => exact Bool.false_ne_true (hnode.symm.trans hp)
  | keys target => cases hp

/-- The assignment is made on the way to the graph `g`, and delivers what the values and the keys of
its target give back. -/
structure Proceeds (a : Assignment) (g : FlowGraph) : Prop where
  settled : a.before.Settled
  readies : a.given.2.Moves a.ready
  delivers : ∃ keys : List Nat, (∀ key ∈ keys, a.given.2.graph.points.length ≤ key) ∧
    a.ready.Delivers (a.given.1 ++ keys) a.after
  grows : a.after.graph.Grows g

theorem moves_given (a : Assignment) : a.before.Moves a.given.2 :=
  Node.moves_expressions a.statement .direct a.values a.before

/-- Of the points made in the values, those that they give back flow into the writes. -/
theorem Proceeds.joined_iff (h : a.Proceeds g) (hw : a.Writes w)
    (hlow : a.before.graph.points.length ≤ s) (hhigh : s < a.given.2.graph.points.length) :
    g.Joined s w ↔ a.Reads s ∧ ¬ a.Nested s := by
  obtain ⟨keys, hkeys, hdelivers⟩ := h.delivers
  have hready := Nat.lt_of_lt_of_le hhigh h.readies.grows.length_le
  have hkey : s ∉ keys := fun hs => Nat.not_lt.2 (hkeys s hs) hhigh
  have hguard : s ∉ a.ready.guards.map Prod.fst := by
    rw [(a.moves_given.trans h.readies).guards_eq]
    intro hs
    obtain ⟨guard, hguard, rfl⟩ := List.mem_map.1 hs
    exact Nat.not_lt.2 hlow (h.settled.guards guard hguard)
  rw [h.grows.joined_iff hw.2.lt_length, hdelivers w hw s hready, or_iff_left hguard,
    List.mem_append, or_iff_left hkey, mem_given_iff]

end Assignment

namespace Function
variable {f : Function} {a : Assignment}

/-- The builder makes this assignment or declaration on its way through the body. -/
inductive Assigns (f : Function) : Assignment → Prop
  | expression {body m n target : Node} {values : List Node} {operator : String} {kind : FlowKind}
    {q : FlowPart} {b b' b'' : FlowBuilder} (hbody : f.body = some body)
    (hstatement : body.Visits f.parameterFlow m b) (hopens : m.Opens b q b')
    (hvisits : q.Visits m.text b' (.expression kind n) b'') (hkind : n.kind = .assignment operator)
    (hchildren : n.children = target :: values) :
    Assigns f (.ofExpression m.text kind n target values b'')
  | declaration {body n : Node} {names : List String} {b : FlowBuilder} (hbody : f.body = some body)
    (hstatement : body.Visits f.parameterFlow n b) (hkind : n.kind = .declaration names) :
    Assigns f (.ofDeclaration n b)

theorem flowGraph_of_body {body : Node} (h : f.body = some body) :
    f.flowGraph = (body.flow f.parameterFlow).graph := by
  rw [flowGraph, h]

theorem Assigns.proceeds (h : f.Assigns a) : a.Proceeds f.flowGraph := by
  cases h with
  | @expression body m n target values operator kind q b b' b'' hbody hstatement
      hopens hvisits hkind
      hchildren =>
    obtain ⟨hbefore, hbehind⟩ := hvisits.moves
    have hsettled := hbefore.settled (hopens.settled (hstatement.sound f.sound_parameterFlow))
    have hkeys := (Node.moves_reads m.text target).2 (Node.readsAll m.text .direct values b'').2
    refine ⟨hsettled, hkeys, ⟨_, ?_, Node.delivers_assignment hkind hchildren m.text kind hsettled⟩,
      ?_⟩
    · intro key hkey
      exact (((FlowPart.keys target).mem_run_iff _).1 hkey).1
    · rw [flowGraph_of_body hbody]
      exact (hbehind.grows.trans hopens.grows).trans hstatement.grows
  | @declaration body n names b hbody hstatement hkind =>
    have hsettled := (hstatement.sound f.sound_parameterFlow).settled
    refine ⟨hsettled, .refl _, ⟨[], nofun, ?_⟩, ?_⟩
    · rw [List.append_nil]
      exact Node.delivers_declaration hkind hsettled
    · rw [flowGraph_of_body hbody]
      exact hstatement.grows

theorem lt_of_joined {r s : Nat} (h : f.flowGraph.Joined r s) : r < s := by
  obtain ⟨e, he, rfl, rfl⟩ := h
  exact (f.defUse_flowGraph.ordered e he).1

theorem le_of_reflTransGen {r s : Nat} (h : Relation.ReflTransGen f.flowGraph.Joined r s) :
    r ≤ s := by
  induction h with
  | refl => exact Nat.le_refl r
  | tail _ hlast ih => exact Nat.le_of_lt (Nat.lt_of_le_of_lt ih (lt_of_joined hlast))

/-- A read in the values of an assignment or a declaration flows into its writes exactly if it is in
no assignment or update inside a value. A nested one has a path to a write just if one leads to a
read that flows into the write: one of the values that is not nested, or one that is made behind
them, of a key or of the written variable itself. Values without assignments and updates in them
lose nothing. -/
theorem values_reach_writes (f : Function) (a : Assignment) (ha : f.Assigns a) :
    (∀ r w, a.Reads r → a.Writes w → (f.flowGraph.Joined r w ↔ ¬ a.Nested r)) ∧
    (∀ r w, a.Reads r → a.Writes w → (Relation.TransGen f.flowGraph.Joined r w ↔
      ∃ s, Relation.ReflTransGen f.flowGraph.Joined r s ∧ f.flowGraph.Joined s w ∧
        (a.Reads s ∧ ¬ a.Nested s ∨ a.given.2.graph.points.length ≤ s))) ∧
    ((∀ v ∈ a.values, ∀ m ∈ v.descendants, m.isWriteExpression = false) →
      ∀ r w, a.Reads r → a.Writes w → f.flowGraph.Joined r w) := by
  have hproceeds := ha.proceeds
  have hjoined : ∀ r w, a.Reads r → a.Writes w → (f.flowGraph.Joined r w ↔ ¬ a.Nested r) := by
    intro r w hr hw
    rw [hproceeds.joined_iff hw hr.1 hr.2.lt_length, and_iff_right hr]
  refine ⟨hjoined, fun r w hr hw => ⟨fun hpath => ?_, ?_⟩, fun hvalues r w hr hw => ?_⟩
  · obtain ⟨s, hpath, hlast⟩ := Relation.TransGen.tail'_iff.1 hpath
    refine ⟨s, hpath, hlast, ?_⟩
    have hlow := Nat.le_trans hr.1 (le_of_reflTransGen hpath)
    rcases Nat.lt_or_ge s a.given.2.graph.points.length with hs | hs
    · exact .inl ((hproceeds.joined_iff hw hlow hs).1 hlast)
    · exact .inr hs
  · rintro ⟨s, hpath, hlast, -⟩
    exact Relation.TransGen.tail'_iff.2 ⟨s, hpath, hlast⟩
  · exact (hjoined r w hr hw).2 (Assignment.not_nested hvalues)

end Function

namespace Sample

/-- The body is `x = value;`. -/
def storing (value : Node) : Function :=
  { name := "f", body := some (assigningStatement "x" value) }

/-- The assignment to `x` in it. -/
def stored (value : Node) : Assignment :=
  .ofExpression [] .direct (assigning "x" value) (variableNode "x") [value] {}

theorem assigns_stored (value : Node) : (storing value).Assigns (stored value) := by
  have h : (storing value).Assigns _ :=
    .expression rfl (.here _ _) (.part (i := 0) rfl rfl rfl) (.here _ _) rfl rfl
  exact h

/-- The value `y = z`. -/
def chained : Node := assigning "y" (variableNode "z")

/-- The value `(y = z) + y`. -/
def readAgain : Node :=
  { kind := .binary "+",
    children := [{ kind := .parenthesized, children := [chained] }, variableNode "y"] }

end Sample

namespace Function

/-- In `x = (y = z) + y` the read of `z`, number 0, is nested. It gets to the write of `x`, number
3, by way of the read of `y` behind it, number 2. -/
theorem values_reach_writes_sample :
    (Sample.storing Sample.readAgain).Assigns (Sample.stored Sample.readAgain) ∧
      (Sample.stored Sample.readAgain).Nested 0 ∧
      ¬ (Sample.storing Sample.readAgain).flowGraph.Joined 0 3 ∧
      Relation.TransGen (Sample.storing Sample.readAgain).flowGraph.Joined 0 3 := by
  have ha := Sample.assigns_stored Sample.readAgain
  have hread : (Sample.stored Sample.readAgain).Reads 0 := by decide +kernel
  have hwrite : (Sample.stored Sample.readAgain).Writes 3 := by decide +kernel
  have hnested : (Sample.stored Sample.readAgain).Nested 0 :=
    ⟨0, _, rfl, .expression .direct Sample.chained, _,
      .inside (i := 0) rfl (.inside (i := 0) rfl (.here _ _)),
      rfl, by decide +kernel, by decide +kernel⟩
  obtain ⟨hjoined, hpath, -⟩ := values_reach_writes _ _ ha
  refine ⟨ha, hnested, fun h => (hjoined 0 3 hread hwrite).1 h hnested, ?_⟩
  have hsteps : ∀ step ∈ [(0, 1), (1, 2), (2, 3)],
      step ∈ (Sample.storing Sample.readAgain).flowGraph.steps := by decide +kernel
  simp only [List.forall_mem_cons, FlowGraph.mem_steps] at hsteps
  obtain ⟨hwritten, hagain, hlast, -⟩ := hsteps
  have hlater : (Sample.stored Sample.readAgain).Reads 2 := by decide +kernel
  refine (hpath 0 3 hread hwrite).2 ⟨2, ?_, hlast,
    .inl ⟨hlater, (hjoined 2 3 hlater hwrite).1 hlast⟩⟩
  exact .tail (.single hwritten) hagain

/-- In `x = y = z` nothing flows from the read of `z` to the write of `x`. -/
theorem chained_value_lost : (Sample.storing Sample.chained).Assigns
    (Sample.stored Sample.chained) ∧
    (Sample.stored Sample.chained).Reads 0 ∧ (Sample.stored Sample.chained).Writes 2 ∧
    ¬ Relation.TransGen (Sample.storing Sample.chained).flowGraph.Joined 0 2 := by
  have hends : (Sample.storing Sample.chained).flowGraph.ends.card ≤ 2 := by decide +kernel
  refine ⟨Sample.assigns_stored _, by decide +kernel, by decide +kernel, fun hpath => ?_⟩
  exact absurd ((FlowGraph.mem_forward_iff hends).2 hpath) (by decide +kernel)

end Function

end ContractAtlas
