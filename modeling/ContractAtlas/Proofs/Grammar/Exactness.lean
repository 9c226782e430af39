import ContractAtlas.Proofs.Grammar.Body
import ContractAtlas.Proofs.Program.Registration
import ContractAtlas.Proofs.Text.Position
import Mathlib.Tactic.MkIffOfInductiveProp

/-! Lowering keeps the exact source: every node of a lowered tree stands for the bytes of its span,
the span tells the row and column where they begin, and no node reaches beyond its parent. -/
namespace ContractAtlas

namespace ParseTree

/-- Where the last closing parenthesis of the tree's source stands. -/
def lastParenthesis? (text : Text) (t : ParseTree) : Option Nat :=
  (Text.cutLast? ')' ((text.slice? t.start t.stop).getD [])).map fun cut => t.start + cut.1.byteSize

/-- Where the invocation of an emitted event ends. -/
def invocationStop (text : Text) (t : ParseTree) : Nat :=
  ((t.lastParenthesis? text).map (· + 1)).getD t.stop

/-- Where the type of a conversion ends, at the first opening parenthesis. -/
def typeStop (text : Text) (t : ParseTree) : Nat :=
  t.start +
  (((Text.cut? ['('] ((text.slice? t.start t.stop).getD [])).map Prod.fst).getD []).byteSize

/-- The tree starts and ends between characters and holds its children. An event's name comes before
its arguments, and the last closing parenthesis after them. -/
@[mk_iff] structure Placed (text : Text) (t : ParseTree) : Prop where
  ordered : t.start ≤ t.stop
  start : text.IsBoundary t.start
  stop : text.IsBoundary t.stop
  children : ∀ c ∈ t.children, t.start ≤ c.start ∧ c.stop ≤ t.stop
  event : t.kind = "emit_statement" → ∀ name ∈ t.fieldOrFirst? "name",
    (∀ last ∈ t.lastParenthesis? text, name.stop ≤ last) ∧
    ∀ a ∈ t.content, a.kind = "call_argument" →
      name.start ≤ a.start ∧ ∀ last ∈ t.lastParenthesis? text, a.stop ≤ last

instance (text : Text) (t : ParseTree) : Decidable (t.Placed text) :=
  decidable_of_iff _ (placed_iff text t).symm

theorem range_of_mem_subtrees {text : Text} {t x : ParseTree}
    (h : ∀ y ∈ t.subtrees, y.Placed text) (hx : x ∈ t.subtrees) :
    t.start ≤ x.start ∧ x.stop ≤ t.stop := by
  induction t with
  | tree t ih =>
    rcases mem_subtrees.1 hx with rfl | ⟨c, hc, hx⟩
    · exact ⟨Nat.le_refl _, Nat.le_refl _⟩
    · have hchild := (h t t.self_mem_subtrees).children c hc
      have hbelow := ih c hc (fun y hy => h y (mem_subtrees_of_child hc hy)) hx
      omega

section Stops
variable {text : Text} {t : ParseTree} (h : t.Placed text)
include h

private theorem exists_source : ∃ source, text.slice? t.start t.stop = some source := by
  obtain ⟨_, source, _, -, -, -, hslice⟩ := Text.exists_slice h.start h.stop h.ordered
  exact ⟨source, hslice⟩

theorem Placed.lastParenthesis {last : Nat} (hlast : t.lastParenthesis? text = some last) :
    t.start ≤ last ∧ last + 1 ≤ t.stop ∧ text.IsBoundary (last + 1) := by
  obtain ⟨source, hslice⟩ := exists_source h
  rw [lastParenthesis?, hslice, Option.getD_some] at hlast
  obtain ⟨⟨before, after⟩, hcut, rfl⟩ := Option.map_eq_some_iff.1 hlast
  have hsource : source = (before ++ [')']) ++ after := by
    rw [Text.eq_of_cutLast? hcut, List.append_assoc, List.singleton_append]
  have hsize : (before ++ [')']).byteSize = before.byteSize + 1 := Text.byteSize_append ..
  obtain ⟨hboundary, hstop⟩ := Text.isBoundary_of_slice h.start h.stop h.ordered hslice hsource
  rw [hsize, ← Nat.add_assoc] at hboundary hstop
  refine ⟨Nat.le_add_right .., ?_, hboundary⟩
  rw [← hstop]
  exact Nat.le_add_right ..

theorem Placed.invocationStop : t.start ≤ t.invocationStop text ∧ t.invocationStop text ≤ t.stop ∧
    text.IsBoundary (t.invocationStop text) := by
  rw [ParseTree.invocationStop]
  cases hlast : t.lastParenthesis? text with
  | none => exact ⟨h.ordered, Nat.le_refl _, h.stop⟩
  | some last =>
    obtain ⟨hle, hstop, hboundary⟩ := h.lastParenthesis hlast
    exact ⟨Nat.le_succ_of_le hle, hstop, hboundary⟩

theorem Placed.typeStop : t.start ≤ t.typeStop text ∧ t.typeStop text ≤ t.stop ∧
    text.IsBoundary (t.typeStop text) := by
  obtain ⟨source, hslice⟩ := exists_source h
  rw [ParseTree.typeStop, hslice, Option.getD_some]
  obtain ⟨head, rest, hhead, hsource⟩ : ∃ head rest,
      ((Text.cut? ['('] source).map Prod.fst).getD [] = head ∧ source = head ++ rest := by
    cases hcut : Text.cut? ['('] source with
    | none => exact ⟨[], source, rfl, rfl⟩
    | some cut => exact ⟨cut.1, _, rfl, Text.eq_of_cut? hcut⟩
  obtain ⟨hboundary, hstop⟩ := Text.isBoundary_of_slice h.start h.stop h.ordered hslice hsource
  rw [hhead]
  exact ⟨by omega, by omega, hboundary⟩

end Stops

end ParseTree

namespace Node

/-- The node stands for the bytes of its span in a file, and line and column tell where these begin:
behind `rows`, whole rows of the file, and behind `row` in the next one. -/
structure ExactAt (s : TreeSource) (n : Node) : Prop where
  file : n.span.file = s.file
  path : n.span.path = s.path
  excerpt : n.excerpt = ⟨s.text, n.span.startByte, n.span.endByte⟩
  place : ∃ rows row after : Text, s.text = rows ++ (row ++ (n.text ++ after)) ∧
    (rows = [] ∨ ['\n'] <:+ rows) ∧ '\n' ∉ row ∧
    n.span.startByte = (rows ++ row).byteSize ∧
    n.span.endByte = (rows ++ (row ++ n.text)).byteSize ∧
    n.span.line = rows.count '\n' + 1 ∧ n.span.column = row.byteSize + 1

/-- All nodes of the tree are exact and lie within their parents. -/
inductive Exact (s : TreeSource) : Node → Prop
  | intro {n : Node} (own : n.ExactAt s) (inside : ∀ c ∈ n.children, n.span.encloses c.span = true)
      (below : ∀ c ∈ n.children, Exact s c) : Exact s n

theorem Exact.walk {s : TreeSource} {n : Node} (h : n.Exact s) {v : Visit} (hv : v ∈ n.walk) :
    v.node.ExactAt s ∧ ∀ parent ∈ v.ancestors.getLast?,
    parent.span.encloses v.node.span = true := by
  have hstep : ∀ m : Node, m.Exact s → ∀ c ∈ m.children, c.Exact s ∧
      m.span.encloses c.span = true :=
    fun m ⟨_, inside, below⟩ c hc => ⟨below c hc, inside c hc⟩
  obtain ⟨⟨hown, _, _⟩, hparent⟩ := forall_mem_walk hstep h v hv
  exact ⟨hown, hparent⟩

end Node

namespace Span

theorem encloses_trans {a b c : Span} (hab : a.encloses b = true) (hbc : b.encloses c = true) :
    a.encloses c = true := by
  simp only [encloses, Bool.and_eq_true, beq_iff_eq, decide_eq_true_eq] at hab hbc ⊢
  omega

end Span

namespace Lowered
variable {s : TreeSource} {t : ParseTree}

/-- A node over the bytes from the start of `t` up to `stop`. -/
def nodeUpTo (s : TreeSource) (t : ParseTree) (stop : Nat) (kind : NodeKind)
    (children : List Node) :
    Node :=
  ⟨kind, { s.spanOf t with endByte := stop }, ⟨s.text, t.start, stop⟩, children⟩

theorem invocationStop_eq (t : ParseTree) :
    t.invocationStop s.text =
      ((Text.cutLast? ')' (s.textOf t)).map fun cut => t.start + cut.1.byteSize + 1).getD
        t.stop := by
  rw [ParseTree.invocationStop, ParseTree.lastParenthesis?, Option.map_map]
  rfl

theorem typeStop_eq (t : ParseTree) :
    t.typeStop s.text =
      t.start + (((Text.cut? ['('] (s.textOf t)).map Prod.fst).getD []).byteSize := rfl

theorem emit_ofTree (t : ParseTree) :
    emit s t (t.children.map (ofTree s)) =
      match t.fieldOrFirst? "name" with
      | none => nodeOver s t (.emit "") []
      | some name => nodeOver s t (.emit (s.nameOf name))
          [nodeUpTo s name (t.invocationStop s.text)
           (.call { callee := Callee.ofText (s.textOf name) })
            ((ofTree s name).node :: t.callArguments.map fun c => (ofTree s c).argument)] := by
  rw [emit, fieldOrFirst?_ofTree, argumentsIn_ofTree, invocationStop_eq]
  cases t.fieldOrFirst? "name" with
  | none => rfl
  | some name =>
    simp only [Option.map_some, ofTree_tree]
    cases Text.cutLast? ')' (s.textOf t) <;> rfl

/-- The node of what a call calls, without the options that may follow it. -/
def calleeNode (s : TreeSource) (f : ParseTree) : Node :=
  let function := unwrap (ofTree s f)
  let wrapped :=
    if function.tree.kind = "struct_expression" then
      (fieldOrFirst? function.tree function.parts "type").map unwrap
    else none
  (wrapped.getD function).node

theorem call_of_none (h : t.fieldOrFirst? "function" = none) :
    call s t (t.children.map (ofTree s)) = other s t (t.children.map (ofTree s)) := by
  rw [call, fieldOrFirst?_ofTree, h]
  rfl

theorem call_of_some {f : ParseTree} (h : t.fieldOrFirst? "function" = some f) :
    ∃ site, call s t (t.children.map (ofTree s)) = nodeOver s t (.call site)
      (calleeNode s f :: t.callArguments.map fun c => (ofTree s c).argument) := by
  rw [call, fieldOrFirst?_ofTree, h, argumentsIn_ofTree]
  exact ⟨_, rfl⟩

theorem conversion_ofTree (t : ParseTree) :
    ∃ site kind, (∀ other, kind ≠ .call other) ∧
      conversion s t (t.children.map (ofTree s)) = nodeOver s t (.call site)
        ((match t.content with
          | c :: _ => if c.stop ≤ t.typeStop s.text then (ofTree s c).node
              else nodeUpTo s t (t.typeStop s.text) kind []
          | [] => nodeUpTo s t (t.typeStop s.text) kind []) ::
        (t.content.filter fun c => t.typeStop s.text < c.start).map fun c =>
        (ofTree s c).node) := by
  have harguments : ∀ stop,
    ((t.content.map (ofTree s)).filter fun p => stop < p.tree.start).map node =
      (t.content.filter fun c => stop < c.start).map fun c => (ofTree s c).node := by
    intro stop
    rw [List.filter_map, List.map_map]
    simp only [Function.comp_def, ofTree_tree]
  have hkind : ∀ (name : String) (other : CallSite),
      (if name = "payable" then .identifier name else .elementaryType name : NodeKind) ≠
        .call other := by
    intro name other
    split <;> exact NodeKind.noConfusion
  rw [conversion, content_ofTree, typeStop_eq]
  simp only [harguments]
  cases Text.cut? ['('] (s.textOf t) with
  | none =>
    cases t.content with
    | nil => exact ⟨_, _, hkind _, rfl⟩
    | cons c cs => exact ⟨_, _, hkind _, by simp only [List.map_cons, ofTree_tree]; rfl⟩
  | some cut =>
    cases t.content with
    | nil => exact ⟨_, _, hkind _, rfl⟩
    | cons c cs => exact ⟨_, _, hkind _, by simp only [List.map_cons, ofTree_tree]; rfl⟩

/-- A node that some tree below `t` is lowered to. -/
def Drawn (s : TreeSource) (t : ParseTree) (n : Node) : Prop :=
  ∃ c ∈ t.children, ∃ x ∈ c.subtrees, n = (ofTree s x).node

/-- What lowering can make of a tree, given what it makes of the trees below. -/
inductive Assembled (s : TreeSource) (t : ParseTree) : Node → Prop
  | whole {kind : NodeKind} {children : List Node} (h : ∀ n ∈ children, Drawn s t n) :
      Assembled s t (nodeOver s t kind children)
  | inner {n : Node} (h : Drawn s t n) : Assembled s t n
  | event {event : String} {site : CallSite} {name : ParseTree} {arguments : List Node}
      (hkind : t.kind = "emit_statement") (hname : t.fieldOrFirst? "name" = some name)
      (h : ∀ n ∈ arguments, ∃ a ∈ t.content, a.kind = "call_argument" ∧
        ∃ x ∈ a.subtrees, n = (ofTree s x).node) :
      Assembled s t (nodeOver s t (.emit event) [nodeUpTo s name (t.invocationStop s.text)
        (.call site) ((ofTree s name).node :: arguments)])
  | conversion {site : CallSite} {kind : NodeKind} {arguments : List Node}
      (h : ∀ n ∈ arguments, Drawn s t n) :
      Assembled s t (nodeOver s t (.call site)
        (nodeUpTo s t (t.typeStop s.text) kind [] :: arguments))

theorem drawn_of_child {c : ParseTree} (hc : c ∈ t.children) : Drawn s t (ofTree s c).node :=
  ⟨c, hc, c, c.self_mem_subtrees, rfl⟩

theorem drawn_of_mem_map {cs : List ParseTree} (hcs : cs ⊆ t.children) {n : Node}
    (hn : n ∈ (cs.map (ofTree s)).map node) : Drawn s t n := by
  rw [List.map_map] at hn
  obtain ⟨c, hc, rfl⟩ := List.mem_map.1 hn
  exact drawn_of_child (hcs hc)

/-- An argument is lowered from the wrapper or from what it holds. -/
theorem exists_argument (a : ParseTree) :
    ∃ x ∈ a.subtrees, (ofTree s a).argument = (ofTree s x).node := by
  rw [argument_ofTree]
  rcases hcontent : a.content with _ | ⟨c, _ | ⟨d, cs⟩⟩
  · exact ⟨a, a.self_mem_subtrees, rfl⟩
  · have hc : c ∈ a.children := a.content_subset (hcontent ▸ List.mem_cons_self)
    exact ⟨c, ParseTree.mem_subtrees_of_child hc c.self_mem_subtrees, rfl⟩
  · exact ⟨a, a.self_mem_subtrees, rfl⟩

theorem exists_unwrap (t : ParseTree) : ∃ x ∈ t.subtrees, unwrap (ofTree s t) = ofTree s x := by
  induction t with
  | tree t ih =>
    rw [unwrap_ofTree]
    split
    · rcases hcontent : t.content with _ | ⟨c, _ | ⟨d, cs⟩⟩
      · exact ⟨t, t.self_mem_subtrees, rfl⟩
      · have hc : c ∈ t.children := t.content_subset (hcontent ▸ List.mem_cons_self)
        obtain ⟨x, hx, he⟩ := ih c hc
        exact ⟨x, ParseTree.mem_subtrees_of_child hc hx, he⟩
      · exact ⟨t, t.self_mem_subtrees, rfl⟩
    · exact ⟨t, t.self_mem_subtrees, rfl⟩

theorem exists_calleeNode (f : ParseTree) :
    ∃ x ∈ f.subtrees, calleeNode s f = (ofTree s x).node := by
  obtain ⟨g, hg, hunwrap⟩ := exists_unwrap (s := s) f
  rw [calleeNode, hunwrap, ofTree_tree, ofTree_parts, fieldOrFirst?_ofTree, Option.map_map]
  split
  · cases htype : g.fieldOrFirst? "type" with
    | none => exact ⟨g, hg, rfl⟩
    | some type =>
      obtain ⟨x, hx, he⟩ := exists_unwrap (s := s) type
      have hx := ParseTree.mem_subtrees_of_child (ParseTree.mem_children_of_fieldOrFirst? htype) hx
      exact ⟨x, ParseTree.mem_subtrees_trans hg hx, congrArg node he⟩
  · exact ⟨g, hg, rfl⟩

section Cases
variable (t)

theorem assembled_leaf (kind : NodeKind) : Assembled s t (nodeOver s t kind []) :=
  .whole fun _ hn => nomatch hn

theorem assembled_holding (kind : NodeKind) :
    Assembled s t (nodeOver s t kind (contentNodes (t.children.map (ofTree s)))) := by
  refine .whole fun n hn => ?_
  rw [contentNodes, content_ofTree] at hn
  exact drawn_of_mem_map (t.content_subset) hn

theorem assembled_onlyContent : Assembled s t (onlyContent s t (t.children.map (ofTree s))) := by
  rw [onlyContent, content_ofTree]
  rcases hcontent : t.content with _ | ⟨c, _ | ⟨d, cs⟩⟩
  · exact assembled_holding t _
  · exact .inner (drawn_of_child (t.content_subset (hcontent ▸ List.mem_cons_self)))
  · exact assembled_holding t _

theorem assembled_block : Assembled s t (block s t (t.children.map (ofTree s))) :=
  assembled_holding t _

theorem assembled_declaration : Assembled s t (declaration s t (t.children.map (ofTree s))) := by
  refine .whole fun n hn => ?_
  rw [content_ofTree, List.filter_map] at hn
  exact drawn_of_mem_map (fun c hc => t.content_subset (List.mem_filter.1 hc).1) hn

theorem assembled_forLoop : Assembled s t (forLoop s t (t.children.map (ofTree s))) := by
  refine .whole fun n hn => ?_
  obtain ⟨⟨i, p⟩, hp, rfl⟩ := List.mem_map.1 hn
  obtain ⟨j, hj, he⟩ := List.mem_mapIdx.1 (List.mem_filter.1 hp).1
  obtain ⟨c, hc, rfl⟩ : ∃ c ∈ t.children, ofTree s c = p :=
    List.mem_map.1 ((Prod.mk.inj he).2 ▸ List.getElem_mem hj)
  dsimp only
  split
  · obtain ⟨x, hx, he⟩ := exists_argument (s := s) c
    exact ⟨c, hc, x, hx, he⟩
  · exact drawn_of_child hc

theorem assembled_emit (hkind : t.kind = "emit_statement") :
    Assembled s t (emit s t (t.children.map (ofTree s))) := by
  rw [emit_ofTree]
  cases hname : t.fieldOrFirst? "name" with
  | none => exact assembled_leaf t _
  | some name =>
    refine .event hkind hname fun n hn => ?_
    obtain ⟨a, ha, rfl⟩ := List.mem_map.1 hn
    obtain ⟨ha, hargument⟩ := ParseTree.mem_callArguments.1 ha
    exact ⟨a, ha, hargument, exists_argument a⟩

theorem assembled_call : Assembled s t (call s t (t.children.map (ofTree s))) := by
  cases hfunction : t.fieldOrFirst? "function" with
  | none =>
    rw [call_of_none hfunction]
    exact assembled_holding t _
  | some f =>
    obtain ⟨site, he⟩ := call_of_some (s := s) hfunction
    have hf := ParseTree.mem_children_of_fieldOrFirst? hfunction
    rw [he]
    refine .whole fun n hn => ?_
    rcases List.mem_cons.1 hn with rfl | hn
    · obtain ⟨x, hx, he⟩ := exists_calleeNode (s := s) f
      exact ⟨f, hf, x, hx, he⟩
    · obtain ⟨a, ha, rfl⟩ := List.mem_map.1 hn
      obtain ⟨x, hx, he⟩ := exists_argument (s := s) a
      exact ⟨a, t.content_subset (ParseTree.mem_callArguments.1 ha).1, x, hx, he⟩

theorem assembled_conversion : Assembled s t (conversion s t (t.children.map (ofTree s))) := by
  obtain ⟨site, kind, -, he⟩ := conversion_ofTree (s := s) t
  have harguments : ∀ n ∈ (t.content.filter fun c => t.typeStop s.text < c.start).map
      (fun c => (ofTree s c).node), Drawn s t n := by
    intro n hn
    obtain ⟨c, hc, rfl⟩ := List.mem_map.1 hn
    exact drawn_of_child (t.content_subset (List.mem_filter.1 hc).1)
  rw [he]
  cases hcontent : t.content with
  | nil => exact .conversion fun _ hn => nomatch hn
  | cons c cs =>
    rw [hcontent] at harguments
    dsimp only
    split
    · refine .whole fun n hn => ?_
      rcases List.mem_cons.1 hn with rfl | hn
      · exact drawn_of_child (t.content_subset (hcontent ▸ List.mem_cons_self))
      · exact harguments n hn
    · exact .conversion harguments

theorem assembled_memberAccess : Assembled s t (memberAccess s t (t.children.map (ofTree s))) := by
  refine .whole fun n hn => ?_
  rw [fieldOrFirst?_ofTree] at hn
  cases hobject : t.fieldOrFirst? "object" with
  | none => rw [hobject] at hn; cases hn
  | some c =>
    rw [hobject] at hn
    cases List.mem_singleton.1 hn
    exact drawn_of_child (ParseTree.mem_children_of_fieldOrFirst? hobject)

theorem assembled_assemble : Assembled s t (assemble s t (t.children.map (ofTree s))) := by
  unfold assemble
  split
  all_goals first
    | exact assembled_onlyContent t
    | exact assembled_block t
    | exact assembled_declaration t
    | exact assembled_forLoop t
    | exact assembled_emit t ‹_›
    | exact assembled_call t
    | exact assembled_conversion t
    | exact assembled_memberAccess t
    | exact assembled_leaf t _
    | exact assembled_holding t _

end Cases

section Exact

/-- A node over a range between two boundaries is exact. -/
theorem exactAt_nodeUpTo {stop : Nat} (hstart : s.text.IsBoundary t.start)
    (hstop : s.text.IsBoundary stop) (hle : t.start ≤ stop) (kind : NodeKind)
    (children : List Node) :
    (nodeUpTo s t stop kind children).ExactAt s := by
  obtain ⟨before, source, after, htext, hbefore, hend, hslice⟩ := Text.exists_slice hstart hstop hle
  obtain ⟨rows, row, rfl, hrows, hrow⟩ := Text.exists_row before
  have hsource : (nodeUpTo s t stop kind children).text = source := by
    change (s.text.slice? t.start stop).getD [] = source
    rw [hslice, Option.getD_some]
  have hplace : s.text.rowColumn t.start = (rows.count '\n', row.byteSize) := by
    rw [htext, List.append_assoc, ← hbefore]
    exact Text.rowColumn_append hrows hrow _
  refine ⟨rfl, rfl, rfl, rows, row, after, ?_, hrows, hrow, hbefore.symm, ?_, ?_, ?_⟩
  · rw [hsource, htext, List.append_assoc]
  · rw [hsource, ← List.append_assoc, Text.byteSize_append, hend]
    rfl
  · exact congrArg (fun place => place.1 + 1) hplace
  · exact congrArg (fun place => place.2 + 1) hplace

theorem encloses_nodeUpTo {x : ParseTree} {stop : Nat} (hstart : t.start ≤ x.start)
    (hstop : stop ≤ t.stop) (kind : NodeKind) (children : List Node) :
    (s.spanOf t).encloses (nodeUpTo s x stop kind children).span = true := by
  simp only [Span.encloses, Bool.and_eq_true, beq_iff_eq, decide_eq_true_eq]
  exact ⟨⟨rfl, hstart⟩, hstop⟩

theorem encloses_spanOf {x : ParseTree} {stop : Nat} (hstart : t.start ≤ x.start)
    (hstop : x.stop ≤ stop) (kind : NodeKind) (children : List Node) :
    (nodeUpTo s t stop kind children).span.encloses (s.spanOf x) = true := by
  simp only [Span.encloses, Bool.and_eq_true, beq_iff_eq, decide_eq_true_eq]
  exact ⟨⟨rfl, hstart⟩, hstop⟩

/-- The lowered form of a tree is exact and does not leave the tree. -/
def IsExact (s : TreeSource) (x : ParseTree) : Prop :=
  (ofTree s x).node.Exact s ∧ (s.spanOf x).encloses (ofTree s x).node.span = true

section Step
variable (h : ∀ x ∈ t.subtrees, x.Placed s.text)
  (hbelow : ∀ c ∈ t.children, ∀ x ∈ c.subtrees, IsExact s x)
include h hbelow

theorem Drawn.exact {n : Node} (hn : Drawn s t n) :
    n.Exact s ∧ (s.spanOf t).encloses n.span = true := by
  obtain ⟨c, hc, x, hx, rfl⟩ := hn
  obtain ⟨hexact, hinside⟩ := hbelow c hc x hx
  have hrange := ParseTree.range_of_mem_subtrees h (ParseTree.mem_subtrees_of_child hc hx)
  exact ⟨hexact, Span.encloses_trans (encloses_spanOf hrange.1 hrange.2 .block []) hinside⟩

omit hbelow in
/-- A node over the whole tree is exact if what it holds is. -/
theorem exact_nodeOver {kind : NodeKind} {children : List Node}
    (hchildren : ∀ n ∈ children, n.Exact s ∧ (s.spanOf t).encloses n.span = true) :
    (nodeOver s t kind children).Exact s := by
  have hplaced := h t t.self_mem_subtrees
  exact ⟨exactAt_nodeUpTo hplaced.start hplaced.stop hplaced.ordered kind children,
    fun n hn => (hchildren n hn).2, fun n hn => (hchildren n hn).1⟩

/-- The invocation of an event is exact: it begins with the name and reaches past the arguments. -/
theorem exact_invocation {site : CallSite} {name : ParseTree} {arguments : List Node}
    (hkind : t.kind = "emit_statement") (hname : t.fieldOrFirst? "name" = some name)
    (harguments : ∀ n ∈ arguments, ∃ a ∈ t.content, a.kind = "call_argument" ∧
      ∃ x ∈ a.subtrees, n = (ofTree s x).node) :
    (nodeUpTo s name (t.invocationStop s.text) (.call site)
      ((ofTree s name).node :: arguments)).Exact s := by
  have hplaced := h t t.self_mem_subtrees
  have hname' := ParseTree.mem_children_of_fieldOrFirst? hname
  have hnamePlaced := h name (ParseTree.mem_subtrees_of_child hname' name.self_mem_subtrees)
  obtain ⟨hlast, hargument⟩ := hplaced.event hkind name hname
  -- Name and arguments end at the last closing parenthesis, if there is one.
  have hstop : ∀ stop, stop ≤ t.stop → (∀ last ∈ t.lastParenthesis? s.text, stop ≤ last) →
      stop ≤ t.invocationStop s.text := by
    intro stop hle hall
    rw [ParseTree.invocationStop]
    cases hcase : t.lastParenthesis? s.text with
    | none => exact hle
    | some last => exact Nat.le_succ_of_le (hall last hcase)
  have hnameStop := hstop name.stop (hplaced.children name hname').2 hlast
  refine ⟨exactAt_nodeUpTo hnamePlaced.start hplaced.invocationStop.2.2
    (Nat.le_trans hnamePlaced.ordered hnameStop) _ _, fun n hn => ?_, fun n hn => ?_⟩
  · rcases List.mem_cons.1 hn with rfl | hn
    · exact Span.encloses_trans (encloses_spanOf (Nat.le_refl _) hnameStop _ _)
        (hbelow name hname' name name.self_mem_subtrees).2
    · obtain ⟨a, ha, hcall, x, hx, rfl⟩ := harguments n hn
      have ha' := t.content_subset ha
      have hrange := ParseTree.range_of_mem_subtrees
        (fun y hy => h y (ParseTree.mem_subtrees_of_child ha' hy)) hx
      have hargumentStop := hstop a.stop (hplaced.children a ha').2 (hargument a ha hcall).2
      have hfirst := (hargument a ha hcall).1
      exact Span.encloses_trans (encloses_spanOf (by omega) (by omega) _ _) (hbelow a ha' x hx).2
  · rcases List.mem_cons.1 hn with rfl | hn
    · exact (hbelow name hname' name name.self_mem_subtrees).1
    · obtain ⟨a, ha, -, x, hx, rfl⟩ := harguments n hn
      exact (hbelow a (t.content_subset ha) x hx).1

theorem Assembled.exact {n : Node} (hn : Assembled s t n) :
    n.Exact s ∧ (s.spanOf t).encloses n.span = true := by
  have hplaced := h t t.self_mem_subtrees
  have hself : ∀ kind children, (s.spanOf t).encloses (nodeOver s t kind children).span = true :=
    fun kind children => encloses_nodeUpTo (Nat.le_refl _) (Nat.le_refl _) kind children
  cases hn with
  | whole hchildren =>
    exact ⟨exact_nodeOver h fun n hn => (hchildren n hn).exact h hbelow, hself _ _⟩
  | inner hn => exact hn.exact h hbelow
  | event hkind hname harguments =>
    have hname' := ParseTree.mem_children_of_fieldOrFirst? hname
    refine ⟨exact_nodeOver h fun n hn => ?_, hself _ _⟩
    cases List.mem_singleton.1 hn
    exact ⟨exact_invocation h hbelow hkind hname harguments,
      encloses_nodeUpTo (hplaced.children _ hname').1 hplaced.invocationStop.2.1 _ _⟩
  | conversion harguments =>
    refine ⟨exact_nodeOver h fun n hn => ?_, hself _ _⟩
    rcases List.mem_cons.1 hn with rfl | hn
    · obtain ⟨hle, hstop, hboundary⟩ := hplaced.typeStop
      refine ⟨⟨exactAt_nodeUpTo hplaced.start hboundary hle _ _, ?_, ?_⟩,
        encloses_nodeUpTo (Nat.le_refl _) hstop _ _⟩
      · exact fun _ hc => nomatch hc
      · exact fun _ hc => nomatch hc
    · exact (harguments n hn).exact h hbelow

end Step

theorem isExact_of_mem_subtrees (h : ∀ x ∈ t.subtrees, x.Placed s.text) {x : ParseTree}
    (hx : x ∈ t.subtrees) : IsExact s x := by
  induction t generalizing x with
  | tree t ih =>
    have hbelow : ∀ c ∈ t.children, ∀ x ∈ c.subtrees, IsExact s x := fun c hc x hx =>
      ih c hc (fun y hy => h y (ParseTree.mem_subtrees_of_child hc hy)) hx
    rcases ParseTree.mem_subtrees.1 hx with rfl | ⟨c, hc, hx⟩
    · rw [IsExact, ofTree_node]
      exact (assembled_assemble x).exact h hbelow
    · exact hbelow c hc x hx

/-- All code of a file keeps its exact source. -/
theorem contracts_exact (h : ∀ x ∈ t.subtrees, x.Placed s.text) {c : Contract}
    (hc : c ∈ (ofTree s t).contracts s) {code : (Scope → Scope) × Node} (hcode : code ∈ c.trees)
    {v : Node.Visit} (hv : v ∈ code.2.walk) :
    v.node.ExactAt s ∧ ∀ parent ∈ v.ancestors.getLast?,
    parent.span.encloses v.node.span = true := by
  obtain ⟨x, hx, he⟩ := exists_of_mem_trees hc hcode
  have hexact : code.2.Exact s := he ▸ (isExact_of_mem_subtrees h hx).1
  exact hexact.walk hv

end Exact

end Lowered

namespace Sample

private def expression (t : ParseTree) : ParseTree := form "expression" t.start t.stop [t]

private def argumentOf (t : ParseTree) : ParseTree :=
  form "call_argument" t.start t.stop [expression t]

/-- The call of a function with a one-letter name and no arguments. -/
def bareCall (start : Nat) : ParseTree :=
  form "call_expression" start (start + 3)
    [expression (form "identifier" start (start + 1)), token "(" (start + 1) (start + 2),
      token ")" (start + 2) (start + 3)]
    [("function", 0)]

private def emitStatement : ParseTree :=
  form "emit_statement" 41 59
    [token "emit" 41 45, expression (form "identifier" 46 47), token "(" 47 48,
      argumentOf (form "type_cast_expression" 48 57
        [form "primitive_type" 48 52 [token "uint" 48 52], token "(" 52 53,
         argumentOf (bareCall 53),
          token ")" 56 57]),
      token ")" 57 58, token ";" 58 59]
    [("name", 1)]

/-- A call with an option block, in which another call stands. -/
private def callWithOptions : ParseTree :=
  let member := form "member_expression" 60 66
    [form "identifier" 60 61, token "." 61 62, form "identifier" 62 66]
    [("object", 0), ("property", 2)]
  let option := form "struct_field_assignment" 67 77
    [form "identifier" 67 72, token ":" 72 73, expression (bareCall 74)] [("name", 0), ("value", 2)]
  form "call_expression" 60 83
    [expression (form "struct_expression" 60 78
        [expression member, token "\x7b" 66 67, option, token "\x7d" 77 78] [("type", 0)]),
      token "(" 78 79, argumentOf (bareCall 79), token ")" 82 83]
    [("function", 0)]

/-- The body of the function of `emitting`. -/
def emittingBody : ParseTree :=
  form "function_body" 39 86
    [token "\x7b" 39 40, form "statement" 41 59 [emitStatement],
      form "statement" 60 84
        [form "expression_statement" 60 84 [expression callWithOptions, token ";" 83 84]],
      token "\x7d" 85 86]

/-- A file with an event, a conversion and call options, behind a comment of more bytes than
characters. -/
def emitting : SourceUnit where
  path := "Emitting.sol"
  text := ("// é\ncontract C \x7b function f() public \x7b\nemit E(uint(g()));\n" ++
    "t.call\x7bvalue: g()\x7d(h()); \x7d \x7d").toList
  tree := form "source_file" 0 88
    [{ kind := "comment", start := 0, stop := 5, isNamed := true, isExtra := true },
      form "contract_declaration" 6 88
        [token "contract" 6 14, form "identifier" 15 16,
          form "contract_body" 17 88
            [token "\x7b" 17 18,
              form "function_definition" 19 86
                [token "function" 19 27, form "identifier" 28 29, token "(" 29 30, token ")" 30 31,
                  form "visibility" 32 38 [token "public" 32 38], emittingBody]
                [("body", 5), ("name", 1)],
              token "\x7d" 87 88]]
        [("body", 2), ("name", 1)]]

end Sample

namespace Lowered

/-- The invocation of the event in the sample, whose range no tree of the file has. -/
theorem contracts_exact_sample :
    let s := Sample.emitting.source 0
    (∀ x ∈ Sample.emitting.tree.subtrees, x.Placed s.text) ∧
      ∃ c ∈ (ofTree s Sample.emitting.tree).contracts s, ∃ code ∈ c.trees, ∃ v ∈ code.2.walk,
        v.node.text = "E(uint(g()))".toList ∧ v.node.span.line = 3 ∧ v.node.span.column = 6 ∧
        v.node.ExactAt s ∧ ∃ parent ∈ v.ancestors.getLast?,
          parent.text = "emit E(uint(g()));".toList ∧
          parent.span.encloses v.node.span = true := by
  intro s
  have hplaced : ∀ x ∈ Sample.emitting.tree.subtrees, x.Placed s.text := by decide +kernel
  have hrun : ∃ c ∈ (ofTree s Sample.emitting.tree).contracts s, ∃ code ∈ c.trees,
      ∃ v ∈ code.2.walk, v.node.text = "E(uint(g()))".toList ∧ v.node.span.line = 3 ∧
        v.node.span.column = 6 ∧ ∃ parent ∈ v.ancestors.getLast?,
          parent.text = "emit E(uint(g()));".toList := by decide +kernel
  obtain ⟨c, hc, code, hcode, v, hv, htext, hline, hcolumn, parent, hparent, hptext⟩ := hrun
  obtain ⟨hexact, hinside⟩ := contracts_exact hplaced hc hcode hv
  exact ⟨hplaced, c, hc, code, hcode, v, hv, htext, hline, hcolumn, hexact, parent, hparent, hptext,
    hinside parent hparent⟩

end Lowered

end ContractAtlas
