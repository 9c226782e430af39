import ContractAtlas.Proofs.Grammar.Exposure
import Mathlib.Algebra.GroupWithZero.Nat

/-! Which calls of a function body come out of lowering: each call that lowering goes through comes
out as exactly one call over the same bytes, and each call that it takes as mere text is lost. -/
namespace ContractAtlas

namespace Node

/-- How many calls the tree has over a range of bytes. -/
def tally (start stop : Nat) (n : Node) : Nat :=
  (n.calls.filter fun c => c.span.startByte == start && c.span.endByte == stop).length

variable {start stop : Nat}

/-- The node itself and its children make up the number of calls. -/
theorem tally_eq (n : Node) :
    n.tally start stop =
      (if n.isCall = true ∧ n.span.startByte = start ∧ n.span.endByte = stop then 1 else 0) +
        (n.children.map (tally start stop)).sum := by
  have hbelow : (((n.children.flatMap descendants).filter isCall).filter fun c =>
      c.span.startByte == start && c.span.endByte == stop).length =
        (n.children.map (tally start stop)).sum := by
    rw [List.filter_flatMap, List.filter_flatMap, List.length_flatMap]
    rfl
  rw [tally, calls, descendants_eq, ← hbelow, List.filter_cons]
  by_cases hcall : n.isCall = true
  · rw [if_pos hcall, List.filter_cons]
    by_cases hrange : n.span.startByte = start ∧ n.span.endByte = stop
    · rw [if_pos (by simpa using hrange), if_pos ⟨hcall, hrange⟩, List.length_cons, Nat.add_comm]
    · rw [if_neg (by simpa using hrange), if_neg fun h => hrange h.2, Nat.zero_add]
  · rw [if_neg hcall, if_neg fun h => hcall h.1, Nat.zero_add]

/-- What is no call over the range itself has the calls of its children. -/
theorem tally_of_not {n : Node}
    (h : ¬(n.isCall = true ∧ n.span.startByte = start ∧ n.span.endByte = stop)) :
    n.tally start stop = (n.children.map (tally start stop)).sum := by
  rw [tally_eq, if_neg h, Nat.zero_add]

/-- What is no call at all has the calls of its children. -/
theorem tally_of_kind {n : Node} (hkind : ∀ site, n.kind ≠ .call site) :
    n.tally start stop = (n.children.map (tally start stop)).sum := by
  refine tally_of_not fun hcall => ?_
  have hcall := hcall.1
  rw [isCall, callSite?] at hcall
  split at hcall
  · exact hkind _ ‹_›
  · cases hcall

theorem sum_map_eq_zero {α : Type} {f : α → Nat} {as : List α} (h : ∀ a ∈ as, f a = 0) :
    (as.map f).sum = 0 :=
  List.sum_eq_zero_iff_forall_eq_nat.2 (List.forall_mem_map.2 h)

/-- A tree has no calls over a range that its own does not hold. -/
theorem Exact.tally_eq_zero {s : TreeSource} {n : Node} (hn : n.Exact s)
    (hout : ¬(n.span.startByte ≤ start ∧ stop ≤ n.span.endByte)) : n.tally start stop = 0 := by
  induction hn with
  | @intro n _ inside _ ih =>
    have hown : ¬(n.isCall = true ∧ n.span.startByte = start ∧ n.span.endByte = stop) := by
      intro ⟨_, hstart, hstop⟩
      exact hout ⟨Nat.le_of_eq hstart, Nat.le_of_eq hstop.symm⟩
    rw [tally_of_not hown]
    refine sum_map_eq_zero fun c hc => ih c hc fun hin => ?_
    have henclosed := inside c hc
    simp only [Span.encloses, Bool.and_eq_true, beq_iff_eq, decide_eq_true_eq] at henclosed
    omega

end Node

/-- The number is one if `p` holds, and zero if not. -/
def Counts (p : Prop) (k : Nat) : Prop := (p → k = 1) ∧ (¬p → k = 0)

theorem Counts.congr {p q : Prop} {k : Nat} (hpq : p ↔ q) (h : Counts p k) : Counts q k :=
  ⟨fun hq => h.1 (hpq.2 hq), fun hq => h.2 fun hp => hq (hpq.1 hp)⟩

namespace Lowered

variable {s : TreeSource} {t c x : ParseTree}

theorem tally_nodeOver {kind : NodeKind} (hkind : ∀ site, kind ≠ .call site) {children : List Node}
    {start stop : Nat} :
    (nodeOver s t kind children).tally start stop = (children.map (Node.tally start stop)).sum :=
  Node.tally_of_kind hkind

theorem unwrap_node (t : ParseTree) : (unwrap (ofTree s t)).node = (ofTree s t).node := by
  induction t with
  | tree t ih =>
    rw [unwrap_ofTree]
    split
    · rename_i hkind
      rcases hcontent : t.content with _ | ⟨c, _ | ⟨d, cs⟩⟩
      · rfl
      · have hc : c ∈ t.children := t.content_subset (hcontent ▸ List.mem_cons_self)
        have hnode : (ofTree s t).node = (ofTree s c).node := by
          rw [ofTree_node]
          simp only [assemble, hkind, onlyContent, content_ofTree, hcontent,
            List.map_cons, List.map_nil]
        rw [hnode]
        exact ih c hc
      · rfl
    · rfl

theorem calleeNode_of_ne (hwrapper : t.kind ≠ "expression")
    (hoptions : t.kind ≠ "struct_expression") :
    calleeNode s t = (ofTree s t).node := by
  rw [calleeNode, unwrap_ofTree, if_neg hwrapper]
  simp only [ofTree_tree, if_neg hoptions, Option.getD_none]

theorem calleeNode_wrapper (hkind : t.kind = "expression") (hcontent : t.content = [c]) :
    calleeNode s t = calleeNode s c := by
  rw [calleeNode, unwrap_ofTree, if_pos hkind, hcontent]
  rfl

theorem calleeNode_options (hkind : t.kind = "struct_expression") {type : ParseTree}
    (htype : t.fieldOrFirst? "type" = some type) : calleeNode s t = (ofTree s type).node := by
  have hwrapper : t.kind ≠ "expression" := by rw [hkind]; decide
  rw [calleeNode, unwrap_ofTree, if_neg hwrapper]
  simp only [ofTree_tree, ofTree_parts, if_pos hkind, fieldOrFirst?_ofTree, htype, Option.map_some,
    Option.getD_some, unwrap_node]

/-- A wrapper of one of these kinds has the calls of what it holds. -/
theorem tally_argument {start stop : Nat}
    (hkind : t.kind = "call_argument" ∨ t.kind = "expression_statement") :
    (ofTree s t).argument.tally start stop = (ofTree s t).node.tally start stop := by
  have hnode : ∃ kind, (∀ site, kind ≠ .call site) ∧
      (ofTree s t).node = nodeOver s t kind (contentNodes (t.children.map (ofTree s))) := by
    rw [ofTree_node]
    rcases hkind with hkind | hkind
    · refine ⟨.other t.kind, fun _ => NodeKind.noConfusion, ?_⟩
      change _ = other s t _
      unfold assemble
      rw [hkind]
      rfl
    · refine ⟨.expressionStatement, fun _ => NodeKind.noConfusion, ?_⟩
      simp only [assemble, hkind]
  rw [argument_ofTree]
  rcases hcontent : t.content with _ | ⟨c, _ | ⟨d, cs⟩⟩
  · rfl
  · obtain ⟨kind, hkind, he⟩ := hnode
    rw [he, tally_nodeOver hkind, contentNodes, content_ofTree, hcontent]
    exact (Nat.add_zero _).symm
  · rfl

/-- The node that a tree is lowered to. What a call calls loses the options of the call. -/
def nodeAs (s : TreeSource) : (called : Bool) → ParseTree → Node
  | false, t => (ofTree s t).node
  | true, t => calleeNode s t

/-- Lowering makes no call over a range that the tree does not hold. -/
theorem tally_eq_zero (h : ∀ y ∈ t.subtrees, y.Grammatical s.text) (hx : x ∈ t.subtrees)
    {start stop : Nat} (hout : ¬(x.start ≤ start ∧ stop ≤ x.stop)) :
    (ofTree s x).node.tally start stop = 0 := by
  obtain ⟨hexact, hinside⟩ := isExact_of_mem_subtrees (fun y hy => (h y hy).placed) hx
  refine hexact.tally_eq_zero fun hin => hout ?_
  simp only [Span.encloses, Bool.and_eq_true, beq_iff_eq, decide_eq_true_eq] at hinside
  change (_ ∧ x.start ≤ _) ∧ _ ≤ x.stop at hinside
  omega

theorem content_mapIdx (parts : List Lowered) :
    content parts =
      ((parts.mapIdx fun i p => (i, p)).filter fun (_, p) => p.isContent).map Prod.snd := by
  have hparts : (parts.mapIdx fun i p => (i, p)).map Prod.snd = parts := by
    simp [List.mapIdx_eq_zipIdx_map, Function.comp_def]
  exact (congrArg content hparts.symm).trans List.filter_map

section Below
variable (h : ∀ y ∈ t.subtrees, y.Grammatical s.text) (hc : c ∈ t.children) (hx : x ∈ c.subtrees)
  (hcall : x.isCallTree = true)
include h hc hx hcall

/-- Nothing below another child has calls over the range of `x`. -/
theorem tally_outside {d y : ParseTree} (hd : d ∈ t.children) (hne : d ≠ c) (hy : y ∈ d.subtrees) :
    (ofTree s y).node.tally x.start x.stop = 0 := by
  obtain ⟨hlt, hin⟩ := ParseTree.range_of_call h hc hx hcall
  have hrange := ParseTree.range_of_subtree (ParseTree.grammatical_of_child h hd) hy
  refine tally_eq_zero h (ParseTree.mem_subtrees_of_child hd hy) fun hout => hne ?_
  exact ParseTree.eq_of_range h hc hlt hin hd (by omega)

/-- Of the children that are kept, only the one that holds `x` contributes. -/
theorem sum_content (p : ParseTree → Bool) {f : ParseTree → Nat}
    (hf : ∀ d ∈ t.children, d ≠ c → f d = 0) :
    ((t.content.filter p).map f).sum = if p c = true then f c else 0 := by
  obtain ⟨hlt, hin⟩ := ParseTree.range_of_call h hc hx hcall
  obtain ⟨before, after, he, hothers⟩ := ParseTree.sole_child h hc hlt hin
  have hzero : ∀ ds : List ParseTree, (∀ d ∈ ds, d ∈ before ++ after) →
      (((ds.filter ParseTree.isContent).filter p).map f).sum = 0 := by
    intro ds hds
    refine Node.sum_map_eq_zero fun d hd => ?_
    have hd := hds d (List.mem_filter.1 (List.mem_filter.1 hd).1).1
    refine hf d ?_ fun hdc => hothers d hd (hdc ▸ hin)
    rw [he, List.mem_append, List.mem_cons]
    exact (List.mem_append.1 hd).imp_right .inr
  rw [ParseTree.content, he, List.filter_append, List.filter_append, List.map_append,
    List.sum_append, List.filter_cons, if_pos (ParseTree.isContent_of_call h hc hx hcall),
    List.filter_cons, hzero before fun d hd => List.mem_append_left _ hd, Nat.zero_add]
  split
  · rw [List.map_cons, List.sum_cons, hzero after fun d hd =>
      List.mem_append_right _ hd, Nat.add_zero]
  · exact hzero after fun d hd => List.mem_append_right _ hd

/-- A node with the content of the tree has the calls of the child that holds `x`. -/
theorem tally_holding {kind : NodeKind} (hkind : ∀ site, kind ≠ .call site) :
    (nodeOver s t kind (contentNodes (t.children.map (ofTree s)))).tally x.start x.stop =
      (ofTree s c).node.tally x.start x.stop := by
  have hsum := sum_content h hc hx hcall (fun _ => true)
    (f := fun d => (ofTree s d).node.tally x.start x.stop)
    fun d hd hne => tally_outside h hc hx hcall hd hne d.self_mem_subtrees
  rw [if_pos rfl, List.filter_true] at hsum
  rw [tally_nodeOver hkind, contentNodes, content_ofTree, List.map_map, List.map_map]
  exact hsum

theorem tally_other : (other s t (t.children.map (ofTree s))).tally x.start x.stop =
    (ofTree s c).node.tally x.start x.stop :=
  tally_holding h hc hx hcall fun _ => NodeKind.noConfusion

theorem tally_block : (block s t (t.children.map (ofTree s))).tally x.start x.stop =
    (ofTree s c).node.tally x.start x.stop := by
  refine tally_holding h hc hx hcall fun _ => ?_
  split <;> exact NodeKind.noConfusion

theorem tally_onlyContent :
    (onlyContent s t (t.children.map (ofTree s))).tally x.start x.stop =
      (ofTree s c).node.tally x.start x.stop := by
  have hmem := ParseTree.mem_content_of_call h hc hx hcall
  rw [onlyContent, content_ofTree]
  rcases hcontent : t.content with _ | ⟨d, _ | ⟨e, ds⟩⟩
  · exact tally_holding h hc hx hcall fun _ => NodeKind.noConfusion
  · rw [hcontent] at hmem
    cases List.mem_singleton.1 hmem
    rfl
  · exact tally_holding h hc hx hcall fun _ => NodeKind.noConfusion

/-- A declaration has the calls of its values. -/
theorem tally_declaration (hkind : t.kind = "variable_declaration_statement") :
    (declaration s t (t.children.map (ofTree s))).tally x.start x.stop =
      if ParseTree.keeps t.kind false c.kind = true then (ofTree s c).node.tally x.start x.stop
      else 0 := by
  have hvalue : ∀ d : ParseTree, (declaredBy s (ofTree s d)).isNone =
      ParseTree.keeps t.kind false d.kind := by
    intro d
    rw [declaredBy, ofTree_tree, hkind]
    split
    · rename_i hd
      rw [hd]
      rfl
    · rename_i hsingle
      split
      · rename_i hd
        rw [hd]
        rfl
      · rename_i htuple
        exact ((Bool.and_eq_true ..).mpr ⟨bne_iff_ne.2 hsingle, bne_iff_ne.2 htuple⟩).symm
  rw [declaration, tally_nodeOver fun _ => NodeKind.noConfusion, content_ofTree, List.filter_map,
    List.map_map, List.map_map]
  simp only [Function.comp_def, hvalue]
  exact sum_content h hc hx hcall _ fun d hd hne =>
    tally_outside h hc hx hcall hd hne d.self_mem_subtrees

/-- The condition of a loop has the same calls with and without its wrapper. -/
theorem tally_forLoop :
    (forLoop s t (t.children.map (ofTree s))).tally x.start x.stop =
      (ofTree s c).node.tally x.start x.stop := by
  have hkind : ∀ site, NodeKind.forLoop ≠ .call site := fun _ => NodeKind.noConfusion
  rw [← tally_holding h hc hx hcall hkind, forLoop, tally_nodeOver hkind, tally_nodeOver hkind,
    contentNodes, content_mapIdx, List.map_map, List.map_map, List.map_map]
  refine congrArg List.sum (List.map_congr_left fun q hq => ?_)
  obtain ⟨i, hi, he⟩ := List.mem_mapIdx.1 (List.mem_filter.1 hq).1
  obtain ⟨d, -, hd⟩ : ∃ d ∈ t.children, ofTree s d = q.2 :=
    List.mem_map.1 ((congrArg Prod.snd he) ▸ List.getElem_mem hi)
  simp only [Function.comp_apply, ← hd, ofTree_tree]
  split
  · rename_i hcondition
    rw [Bool.and_eq_true, decide_eq_true_eq, decide_eq_true_eq] at hcondition
    exact tally_argument (.inr hcondition.2)
  · rfl

/-- Of a head and the arguments behind it, only the one that holds `x` contributes. -/
theorem tally_headed {field : String} (hheaded : t.HeadedBy field "call_argument")
    {head : ParseTree} (hhead : t.fieldOrFirst? field = some head) {n : Node}
    (hn : head ≠ c → n.tally x.start x.stop = 0) :
    n.tally x.start x.stop +
      ((t.callArguments.map fun d => (ofTree s d).argument).map (Node.tally x.start x.stop)).sum =
        if c.kind = "call_argument" then (ofTree s c).node.tally x.start x.stop
        else n.tally x.start x.stop := by
  have hsum := sum_content h hc hx hcall (fun d => d.kind = "call_argument")
    (f := fun d => (ofTree s d).argument.tally x.start x.stop) fun d hd hne => by
      obtain ⟨y, hy, he⟩ := exists_argument (s := s) d
      rw [he]
      exact tally_outside h hc hx hcall hd hne hy
  rw [ParseTree.callArguments, List.map_map]
  refine (congrArg _ hsum).trans ?_
  by_cases hargument : c.kind = "call_argument"
  · have hne : head ≠ c := by
      rintro rfl
      obtain ⟨_, hfirst, -, hother, -⟩ := hheaded
      cases hhead.symm.trans hfirst
      exact hother hargument
    rw [if_pos (decide_eq_true hargument), if_pos hargument, hn hne, Nat.zero_add,
      tally_argument (.inl hargument)]
  · rw [if_neg fun hd => hargument (of_decide_eq_true hd), if_neg hargument, Nat.add_zero]

theorem tally_emit (hkind : t.kind = "emit_statement") :
    (emit s t (t.children.map (ofTree s))).tally x.start x.stop =
      (ofTree s c).node.tally x.start x.stop := by
  have hself := h t t.self_mem_subtrees
  obtain ⟨hheaded, hparenthesis⟩ := hself.event hkind
  obtain ⟨last, hlast⟩ := Option.isSome_iff_exists.1 hparenthesis
  obtain ⟨name, hname, -⟩ := id hheaded
  have hmem := ParseTree.mem_content_of_call h hc hx hcall
  -- Whether it stands in the name or in an argument, `x` ends before the invocation does.
  have hbefore : c.stop ≤ last := by
    obtain ⟨hnameStop, harguments⟩ := hself.placed.event hkind name hname
    by_cases hargument : c.kind = "call_argument"
    · exact (harguments c hmem hargument).2 last hlast
    · cases ParseTree.eq_of_headedBy h hc hx hcall hheaded hname hargument
      exact hnameStop last hlast
  have hrange := ParseTree.range_of_call h hc hx hcall
  have hstop : t.invocationStop s.text = last + 1 := by rw [ParseTree.invocationStop, hlast]; rfl
  rw [emit_ofTree, hname]
  dsimp only
  rw [tally_nodeOver fun _ => NodeKind.noConfusion, List.map_singleton, List.sum_singleton, hstop,
    Node.tally_of_not fun hown => absurd (show last + 1 = x.stop from hown.2.2) (by omega)]
  refine (tally_headed h hc hx hcall hheaded hname fun hne =>
    tally_outside h hc hx hcall (ParseTree.mem_children_of_fieldOrFirst? hname) hne
      name.self_mem_subtrees).trans ?_
  split
  · rfl
  · rename_i hargument
    rw [ParseTree.eq_of_headedBy h hc hx hcall hheaded hname hargument]

theorem tally_call (hkind : t.kind = "call_expression") :
    (call s t (t.children.map (ofTree s))).tally x.start x.stop =
      if c.kind = "call_argument" then (ofTree s c).node.tally x.start x.stop
      else (calleeNode s c).tally x.start x.stop := by
  obtain ⟨hheaded, hends⟩ := (h t t.self_mem_subtrees).call hkind
  obtain ⟨f, hf, -⟩ := id hheaded
  obtain ⟨site, he⟩ := call_of_some (s := s) hf
  have hrange := ParseTree.range_of_call h hc hx hcall
  have hend := hends c (ParseTree.mem_content_of_call h hc hx hcall)
  rw [he, Node.tally_of_not fun hown => absurd (show t.stop = x.stop from hown.2.2) (by omega)]
  refine (tally_headed h hc hx hcall hheaded hf (n := calleeNode s f) fun hne => ?_).trans ?_
  · obtain ⟨y, hy, he⟩ := exists_calleeNode (s := s) f
    rw [he]
    exact tally_outside h hc hx hcall (ParseTree.mem_children_of_fieldOrFirst? hf) hne hy
  · split
    · rfl
    · rename_i hargument
      rw [ParseTree.eq_of_headedBy h hc hx hcall hheaded hf hargument]

theorem tally_conversion (hkind : t.isConversion = true) :
    (conversion s t (t.children.map (ofTree s))).tally x.start x.stop =
      (ofTree s c).node.tally x.start x.stop := by
  obtain ⟨hcontent, htail⟩ := (h t t.self_mem_subtrees).conversion hkind
  obtain ⟨site, kind, hmade, he⟩ := conversion_ofTree (s := s) t
  have hmem := ParseTree.mem_content_of_call h hc hx hcall
  have hrange := ParseTree.range_of_call h hc hx hcall
  obtain ⟨hend, hside⟩ := hcontent c hmem
  have hsum := sum_content h hc hx hcall (fun d => t.typeStop s.text < d.start)
    (f := fun d => (ofTree s d).node.tally x.start x.stop)
    fun d hd hne => tally_outside h hc hx hcall hd hne d.self_mem_subtrees
  have hmadeZero : (nodeUpTo s t (t.typeStop s.text) kind []).tally x.start x.stop = 0 :=
    Node.tally_of_kind hmade
  rw [he, Node.tally_of_not fun hown => absurd (show t.stop = x.stop from hown.2.2) (by omega)]
  change Node.tally x.start x.stop _ + (((_ : List ParseTree).map _).map _).sum = _
  rw [List.map_map]
  refine (congrArg _ hsum).trans ?_
  cases hfirst : t.content with
  | nil =>
    rw [hfirst] at hmem
    cases hmem
  | cons first rest =>
    have hfirst' : first ∈ t.children := t.content_subset (hfirst ▸ List.mem_cons_self)
    rw [hfirst] at hmem htail
    dsimp only
    by_cases hlater : t.typeStop s.text < c.start
    · have hcallee : (if first.stop ≤ t.typeStop s.text then (ofTree s first).node
          else nodeUpTo s t (t.typeStop s.text) kind []).tally x.start x.stop = 0 := by
        split
        · refine tally_outside h hc hx hcall hfirst' ?_ first.self_mem_subtrees
          rintro rfl
          omega
        · exact hmadeZero
      rw [if_pos (decide_eq_true hlater), hcallee, Nat.zero_add]
    · have hfirst : c = first := by
        rcases List.mem_cons.1 hmem with he | hrest
        · exact he
        · exact absurd (htail c hrest) hlater
      subst hfirst
      rw [if_neg fun hd => hlater (of_decide_eq_true hd), if_pos (hside.resolve_right hlater),
        Nat.add_zero]

theorem tally_memberAccess (hkind : t.kind = "member_expression") :
    (memberAccess s t (t.children.map (ofTree s))).tally x.start x.stop =
      (ofTree s c).node.tally x.start x.stop := by
  have hmem := ParseTree.mem_content_of_call h hc hx hcall
  obtain ⟨hlt, hin⟩ := ParseTree.range_of_call h hc hx hcall
  rw [memberAccess, tally_nodeOver fun _ => NodeKind.noConfusion, fieldOrFirst?_ofTree]
  obtain ⟨object, hobject⟩ := ParseTree.exists_fieldOrFirst? hmem "object"
  have hsame := (h t t.self_mem_subtrees).member hkind object hobject c hmem
    (ParseTree.holdsCall_of_mem hx hcall)
  cases ParseTree.eq_of_range h hc hlt hin
    (ParseTree.mem_children_of_fieldOrFirst? hobject) (by omega)
  rw [hobject]
  exact Nat.add_zero _

/-- Of a form that keeps all its parts, the calls are those of the child that holds `x`. -/
theorem tally_plain (hassembly : t.kind ≠ "assembly_statement")
    (hcreation : t.kind ≠ "new_expression")
    (hdeclaration : t.kind ≠ "variable_declaration_statement")
    (hother : t.kind ≠ "call_expression") :
    (ofTree s t).node.tally x.start x.stop = (ofTree s c).node.tally x.start x.stop := by
  have hatom : ¬t.isAtom = true := by
    intro hatom
    have hnone := (h t t.self_mem_subtrees).atom hatom
    rw [ParseTree.holdsCall_of_mem (ParseTree.mem_subtrees_of_child hc hx) hcall] at hnone
    cases hnone
  rw [ofTree_node]
  unfold assemble
  split
  -- The forms are told apart by their names alone, without unfolding what they make.
  all_goals first
    | contradiction
    | with_reducible exact tally_onlyContent h hc hx hcall
    | with_reducible exact tally_block h hc hx hcall
    | with_reducible exact tally_forLoop h hc hx hcall
    | with_reducible exact tally_emit h hc hx hcall ‹_›
    | with_reducible exact tally_memberAccess h hc hx hcall ‹_›
    | with_reducible exact tally_conversion h hc hx hcall (ParseTree.isConversion_iff.2 (.inl ‹_›))
    | with_reducible exact tally_conversion h hc hx hcall (ParseTree.isConversion_iff.2 (.inr ‹_›))
    | with_reducible exact tally_other h hc hx hcall
    | exact absurd (by rw [ParseTree.isAtom, ‹t.kind = _›]; decide) hatom
    | exact tally_holding h hc hx hcall fun _ => NodeKind.noConfusion

theorem tally_node :
    (ofTree s t).node.tally x.start x.stop =
      if ParseTree.keeps t.kind false c.kind = true then
        (nodeAs s (ParseTree.calls t.kind false c.kind) c).tally x.start x.stop
      else 0 := by
  by_cases hassembly : t.kind = "assembly_statement"
  · rw [ofTree_node, hassembly]
    simp only [assemble, hassembly]
    exact tally_nodeOver fun _ => NodeKind.noConfusion
  by_cases hcreation : t.kind = "new_expression"
  · rw [ofTree_node, hcreation]
    simp only [assemble, hcreation]
    exact tally_nodeOver fun _ => NodeKind.noConfusion
  by_cases hdeclaration : t.kind = "variable_declaration_statement"
  · have hcalls : ParseTree.calls t.kind false c.kind = false :=
      ParseTree.calls_of_ne _ (by rw [hdeclaration]; decide)
    rw [ofTree_node, hcalls, nodeAs, ← tally_declaration h hc hx hcall hdeclaration]
    simp only [assemble, hdeclaration]
  rw [if_pos (ParseTree.keeps_of_ne _ hassembly hcreation hdeclaration)]
  by_cases hother : t.kind = "call_expression"
  · have hnode : (ofTree s t).node = call s t (t.children.map (ofTree s)) := by
      rw [ofTree_node]
      simp only [assemble, hother]
    rw [hnode, tally_call h hc hx hcall hother, hother]
    by_cases hargument : c.kind = "call_argument"
    · rw [if_pos hargument, hargument]
      rfl
    · have hcalls : ParseTree.calls "call_expression" false c.kind = true := bne_iff_ne.2 hargument
      rw [if_neg hargument, hcalls, nodeAs]
  · rw [ParseTree.calls_of_ne _ hother, nodeAs,
      tally_plain h hc hx hcall hassembly hcreation hdeclaration hother]

theorem tally_calleeNode :
    (calleeNode s t).tally x.start x.stop =
      if ParseTree.keeps t.kind true c.kind = true then
        (nodeAs s (ParseTree.calls t.kind true c.kind) c).tally x.start x.stop
      else 0 := by
  have hself := h t t.self_mem_subtrees
  by_cases hwrapper : t.kind = "expression"
  · obtain ⟨d, hcontent⟩ := List.length_eq_one_iff.1 (hself.wrapper hwrapper)
    have hmem := ParseTree.mem_content_of_call h hc hx hcall
    rw [hcontent] at hmem
    cases List.mem_singleton.1 hmem
    rw [calleeNode_wrapper hwrapper hcontent, hwrapper]
    rfl
  by_cases hoptions : t.kind = "struct_expression"
  · have hheaded := hself.options hoptions
    obtain ⟨type, htype, -, hne, -⟩ := id hheaded
    rw [calleeNode_options hoptions htype, hoptions]
    by_cases hassignment : c.kind = "struct_field_assignment"
    · rw [hassignment]
      refine tally_outside h hc hx hcall (ParseTree.mem_children_of_fieldOrFirst? htype) ?_
        type.self_mem_subtrees
      rintro rfl
      exact hne hassignment
    · have hkeeps : ParseTree.keeps "struct_expression" true c.kind = true :=
        bne_iff_ne.2 hassignment
      rw [if_pos hkeeps, ParseTree.eq_of_headedBy h hc hx hcall hheaded htype hassignment]
      rfl
  · rw [calleeNode_of_ne hwrapper hoptions, ParseTree.keeps_called _ hoptions,
      ParseTree.calls_called _ hwrapper]
    exact tally_node h hc hx hcall

/-- A form has the calls of the child that holds `x` if it keeps that child, and none if not. -/
theorem tally_nodeAs (called : Bool) :
    (nodeAs s called t).tally x.start x.stop =
      if ParseTree.keeps t.kind called c.kind = true then
        (nodeAs s (ParseTree.calls t.kind called c.kind) c).tally x.start x.stop
      else 0 := by
  cases called with
  | false => exact tally_node h hc hx hcall
  | true => exact tally_calleeNode h hc hx hcall

end Below

/-- A call comes out as one call over its range, since its parts end before it does. -/
theorem tally_self (h : ∀ y ∈ x.subtrees, y.Grammatical s.text) (hcall : x.isCallTree = true)
    (called : Bool) : (nodeAs s called x).tally x.start x.stop = 1 := by
  rw [ParseTree.isCallTree, Bool.and_eq_true, beq_iff_eq] at hcall
  have hkind := hcall.1
  have hnode : nodeAs s called x = call s x (x.children.map (ofTree s)) := by
    have hcalled : nodeAs s called x = (ofTree s x).node := by
      cases called with
      | false => rfl
      | true => exact calleeNode_of_ne (by rw [hkind]; decide) (by rw [hkind]; decide)
    rw [hcalled, ofTree_node]
    simp only [assemble, hkind]
  obtain ⟨⟨f, hf, hcontent, -, -⟩, hends⟩ := (h x x.self_mem_subtrees).call hkind
  obtain ⟨site, he⟩ := call_of_some (s := s) hf
  have hbelow : ∀ d ∈ x.content, ∀ y ∈ d.subtrees, (ofTree s y).node.tally x.start x.stop = 0 := by
    intro d hd y hy
    have hmem := x.content_subset hd
    have hrange := ParseTree.range_of_subtree (ParseTree.grammatical_of_child h hmem) hy
    have hend := hends d hd
    exact tally_eq_zero h (ParseTree.mem_subtrees_of_child hmem hy) (by omega)
  rw [hnode, he, Node.tally_eq, if_pos ⟨rfl, rfl, rfl⟩]
  refine congrArg (1 + ·) (Node.sum_map_eq_zero fun n hn => ?_)
  rcases List.mem_cons.1 hn with rfl | hn
  · obtain ⟨y, hy, he⟩ := exists_calleeNode (s := s) f
    rw [he]
    exact hbelow f (ParseTree.mem_content.2 ⟨ParseTree.mem_children_of_fieldOrFirst? hf, hcontent⟩)
      y hy
  · obtain ⟨d, hd, rfl⟩ := List.mem_map.1 hn
    obtain ⟨y, hy, he⟩ := exists_argument (s := s) d
    rw [he]
    exact hbelow d (ParseTree.mem_callArguments.1 hd).1 y hy

/-- Calls that lowering goes through come out once, and no others come out. -/
theorem counts_exposed (h : ∀ y ∈ t.subtrees, y.Grammatical s.text) (hx : x ∈ t.subtrees)
    (hcall : x.isCallTree = true) (called : Bool) :
    Counts (x ∈ t.exposed called) ((nodeAs s called t).tally x.start x.stop) := by
  induction t generalizing called with
  | tree t ih =>
    rcases ParseTree.mem_subtrees.1 hx with rfl | ⟨c, hc, hx⟩
    · exact ⟨fun _ => tally_self h hcall called,
        fun hnot => absurd (ParseTree.mem_exposed.2 (.inl rfl)) hnot⟩
    · refine Counts.congr (ParseTree.mem_exposed_below h hc hx hcall).symm ?_
      rw [tally_nodeAs h hc hx hcall]
      split
      · rename_i hkeeps
        exact (ih c hc (ParseTree.grammatical_of_child h hc) hx _).congr (and_iff_right hkeeps).symm
      · rename_i hdrops
        exact ⟨fun hexposed => absurd hexposed.1 hdrops, fun _ => rfl⟩

/-- Every function of a file comes out with a body in which each call of its source stands exactly
once if lowering goes through it, and not at all if not. -/
theorem function_calls_counted (h : ∀ y ∈ t.subtrees, y.Grammatical s.text) {d b : ParseTree}
    (hd : d ∈ t.functionTrees) (hb : d.body? = some b) :
    ∃ c ∈ (ofTree s t).contracts s, ∃ f ∈ c.functions, ∃ body,
      f.span = s.spanOf d ∧ f.body = some body ∧ ∀ x ∈ b.subtrees, x.isCallTree = true →
        Counts (x ∈ b.exposed false) (body.tally x.start x.stop) := by
  have hmem : (s.spanOf d, some (ofTree s b).node, {}) ∈
      ((ofTree s t).contracts s).flatMap fun c => c.functions.map Function.lowering := by
    rw [functions_contracts]
    exact List.mem_map.2 ⟨d, hd, by rw [hb]; rfl⟩
  obtain ⟨c, hc, hf⟩ := List.mem_flatMap.1 hmem
  obtain ⟨f, hf, he⟩ := List.mem_map.1 hf
  obtain ⟨hspan, hbody, -⟩ : f.span = _ ∧ f.body = _ ∧ f.summary = _ := by
    simpa only [Function.lowering, Prod.mk.injEq] using he
  have hb' : b ∈ t.subtrees :=
    ParseTree.mem_subtrees_trans (ParseTree.mem_subtrees_of_functionTrees hd)
      (ParseTree.mem_subtrees_of_child (ParseTree.mem_children_of_body? hb) b.self_mem_subtrees)
  refine ⟨c, hc, f, hf, _, hspan, hbody, fun x hx hcall => ?_⟩
  exact counts_exposed (fun y hy => h y (ParseTree.mem_subtrees_trans hb' hy)) hx hcall false

/-- In the sample, the call in the conversion stands once in the body and the one in the options of
another call does not. -/
theorem function_calls_counted_sample :
    let s := Sample.emitting.source 0
    (∀ y ∈ Sample.emitting.tree.subtrees, y.Grammatical s.text) ∧
      ∃ d ∈ Sample.emitting.tree.functionTrees, d.body? = some Sample.emittingBody ∧
        ∃ c ∈ (ofTree s Sample.emitting.tree).contracts s, ∃ f ∈ c.functions, ∃ body,
          f.span = s.spanOf d ∧ f.body = some body ∧ body.tally 53 56 = 1 ∧
          body.tally 74 77 = 0 := by
  intro s
  have hgrammatical : ∀ y ∈ Sample.emitting.tree.subtrees, y.Grammatical s.text := by decide +kernel
  obtain ⟨d, hd, hb⟩ : ∃ d ∈ Sample.emitting.tree.functionTrees,
      d.body? = some Sample.emittingBody :=
    ⟨_, List.mem_singleton_self _, rfl⟩
  obtain ⟨c, hc, f, hf, body, hspan, hbody, hcounts⟩ := function_calls_counted hgrammatical hd hb
  obtain ⟨x, hx, hxcall, hxstart, hxstop⟩ : ∃ x ∈ Sample.emittingBody.exposed false,
      x.isCallTree = true ∧ x.start = 53 ∧ x.stop = 56 := by decide +kernel
  obtain ⟨y, hy, hycall, hystart, hystop⟩ : ∃ y ∈ Sample.emittingBody.subtrees,
      y.isCallTree = true ∧ y.start = 74 ∧ y.stop = 77 := by decide +kernel
  have hhidden : ∀ z ∈ Sample.emittingBody.exposed false,
      ¬(z.isCallTree = true ∧ z.start = 74 ∧ z.stop = 77) := by decide +kernel
  have honce := (hcounts x (ParseTree.exposed_subset_subtrees hx) hxcall).1 hx
  have hlost := (hcounts y hy hycall).2 fun hexposed => hhidden y hexposed ⟨hycall, hystart, hystop⟩
  rw [hxstart, hxstop] at honce
  rw [hystart, hystop] at hlost
  exact ⟨hgrammatical, d, hd, hb, c, hc, f, hf, body, hspan, hbody, honce, hlost⟩

/-- A call is lost though the file is accepted and has no assembly: it stands in the options of
another call. -/
theorem call_lost_in_options :
    let s := Sample.emitting.source 0
    Sample.emitting.tree.hasFault = false ∧
      (∀ y ∈ Sample.emitting.tree.subtrees, y.kind ≠ "assembly_statement") ∧
      (∃ d ∈ Sample.emitting.tree.functionTrees, ∃ b ∈ d.body?, ∃ x ∈ b.subtrees,
        x.isCallTree = true ∧ x.start = 74 ∧ x.stop = 77) ∧
      ∀ c ∈ (ofTree s Sample.emitting.tree).contracts s, ∀ f ∈ c.functions, ∀ body ∈ f.body,
        body.tally 74 77 = 0 := by
  decide +kernel

end Lowered

end ContractAtlas
