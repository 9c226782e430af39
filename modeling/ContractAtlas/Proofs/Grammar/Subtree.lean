import ContractAtlas.Proofs.Grammar.Lowered

/-! The trees below a syntax tree, and lowering told in terms of them. -/
namespace ContractAtlas

namespace ParseTree

/-- Induction on a syntax tree, with the hypothesis for every child. -/
@[induction_eliminator] theorem induct {P : ParseTree → Prop}
    (tree : ∀ t : ParseTree, (∀ c ∈ t.children, P c) → P t) (t : ParseTree) : P t :=
  @ParseTree.rec P (fun ts => ∀ c ∈ ts, P c)
    (fun _ _ _ _ _ _ _ _ _ hcs => tree _ hcs) (fun _ hc => nomatch hc)
    (fun _ _ ht hts _ hc => (List.mem_cons.1 hc).elim (fun he => he ▸ ht) (hts _)) t

mutual

/-- The tree and all trees below it. -/
def subtrees : ParseTree → List ParseTree
  | ⟨kind, start, stop, isNamed, isExtra, isError, isMissing, children, fields⟩ =>
    ⟨kind, start, stop, isNamed, isExtra, isError, isMissing, children, fields⟩ ::
      subtreesIn children

def subtreesIn : List ParseTree → List ParseTree
  | [] => []
  | t :: ts => subtrees t ++ subtreesIn ts

end

theorem subtreesIn_eq (ts : List ParseTree) : subtreesIn ts = ts.flatMap subtrees := by
  induction ts with
  | nil => rfl
  | cons t ts ih => rw [subtreesIn, ih, List.flatMap_cons]

theorem mem_subtrees {t x : ParseTree} :
    x ∈ t.subtrees ↔ x = t ∨ ∃ c ∈ t.children, x ∈ c.subtrees := by
  rcases t with ⟨kind, start, stop, isNamed, isExtra, isError, isMissing, children, fields⟩
  rw [subtrees, subtreesIn_eq, List.mem_cons, List.mem_flatMap]

theorem self_mem_subtrees (t : ParseTree) : t ∈ t.subtrees := mem_subtrees.2 (.inl rfl)

theorem mem_subtrees_of_child {t c x : ParseTree} (hc : c ∈ t.children) (hx : x ∈ c.subtrees) :
    x ∈ t.subtrees :=
  mem_subtrees.2 (.inr ⟨c, hc, hx⟩)

theorem mem_subtrees_trans {t x y : ParseTree} (hx : x ∈ t.subtrees) (hy : y ∈ x.subtrees) :
    y ∈ t.subtrees := by
  induction t with
  | tree t ih =>
    rcases mem_subtrees.1 hx with rfl | ⟨c, hc, hx⟩
    · exact hy
    · exact mem_subtrees_of_child hc (ih c hc hx)

/-- What the parser could not make sense of, or put in for something that it missed. -/
def IsFault (t : ParseTree) : Prop := t.isError = true ∨ t.isMissing = true

theorem anyFault_eq (ts : List ParseTree) : anyFault ts = ts.any hasFault := by
  induction ts with
  | nil => rfl
  | cons t ts ih => rw [anyFault, ih, List.any_cons]

theorem hasFault_iff {t : ParseTree} : t.hasFault = true ↔ ∃ x ∈ t.subtrees, x.IsFault := by
  induction t with
  | tree t ih =>
    have hself : t.hasFault = true ↔ t.IsFault ∨ ∃ c ∈ t.children, c.hasFault = true := by
      rcases t with ⟨kind, start, stop, isNamed, isExtra, isError, isMissing, children, fields⟩
      rw [hasFault, anyFault_eq, Bool.or_eq_true, Bool.or_eq_true, List.any_eq_true]
      rfl
    rw [hself]
    constructor
    · rintro (h | ⟨c, hc, h⟩)
      · exact ⟨t, t.self_mem_subtrees, h⟩
      · obtain ⟨x, hx, h⟩ := (ih c hc).1 h
        exact ⟨x, mem_subtrees_of_child hc hx, h⟩
    · rintro ⟨x, hx, h⟩
      rcases mem_subtrees.1 hx with rfl | ⟨c, hc, hx⟩
      · exact .inl h
      · exact .inr ⟨c, hc, (ih c hc).2 ⟨x, hx, h⟩⟩

/-- A fault is found wherever there is one. -/
theorem isSome_firstFault? (t : ParseTree) : t.firstFault?.isSome = t.hasFault := by
  have hall : ∀ ts : List ParseTree, (∀ t ∈ ts, t.firstFault?.isSome = t.hasFault) →
      (firstFaultIn? ts).isSome = anyFault ts := by
    intro ts hts
    induction ts with
    | nil => rfl
    | cons t ts ih =>
      obtain ⟨ht, hts⟩ := List.forall_mem_cons.1 hts
      rw [firstFaultIn?, anyFault, ← ht, ← ih hts]
      cases t.firstFault? <;> rfl
  induction t with
  | tree t ih =>
    rcases t with ⟨kind, start, stop, isNamed, isExtra, isError, isMissing, children, fields⟩
    rw [firstFault?, hasFault]
    cases isError || isMissing with
    | true => rfl
    | false =>
      cases hchildren : anyFault children with
      | true => simp [hall children ih, hchildren]
      | false => simp

/-- Named by the grammar and no comment. -/
def isContent (t : ParseTree) : Bool := t.isNamed && !t.isExtra

def content (t : ParseTree) : List ParseTree := t.children.filter isContent

theorem mem_content {t c : ParseTree} : c ∈ t.content ↔ c ∈ t.children ∧ c.isContent = true :=
  List.mem_filter

theorem content_subset (t : ParseTree) : t.content ⊆ t.children := fun _ hc => (mem_content.1 hc).1

def callArguments (t : ParseTree) : List ParseTree :=
  t.content.filter fun c => c.kind = "call_argument"

theorem mem_callArguments {t c : ParseTree} :
    c ∈ t.callArguments ↔ c ∈ t.content ∧ c.kind = "call_argument" := by
  rw [callArguments, List.mem_filter, decide_eq_true_eq]

/-- The child under a field name. -/
def field? (t : ParseTree) (name : String) : Option ParseTree :=
  (t.fields.lookup name).bind fun i => t.children[i]?

/-- The child under a field name, or else the first content child. -/
def fieldOrFirst? (t : ParseTree) (name : String) : Option ParseTree :=
  (t.field? name).orElse fun _ => t.content.head?

theorem mem_children_of_field? {t c : ParseTree} {name : String} (h : t.field? name = some c) :
    c ∈ t.children := by
  obtain ⟨i, -, hi⟩ := Option.bind_eq_some_iff.1 h
  exact List.mem_of_getElem? hi

theorem mem_children_of_fieldOrFirst? {t c : ParseTree} {name : String}
    (h : t.fieldOrFirst? name = some c) : c ∈ t.children := by
  rw [fieldOrFirst?] at h
  cases hf : t.field? name with
  | some d =>
    rw [hf] at h
    exact mem_children_of_field? (hf.trans h)
  | none =>
    rw [hf] at h
    exact (mem_content.1 (List.mem_of_mem_head? h)).1

theorem exists_fieldOrFirst? {t c : ParseTree} (hc : c ∈ t.content) (name : String) :
    ∃ d, t.fieldOrFirst? name = some d := by
  rw [fieldOrFirst?]
  cases t.field? name with
  | some d => exact ⟨d, rfl⟩
  | none =>
    obtain ⟨d, ds, hcontent⟩ := List.exists_cons_of_ne_nil (List.ne_nil_of_mem hc)
    exact ⟨d, by rw [hcontent]; rfl⟩

end ParseTree

namespace Lowered
variable {s : TreeSource}

private theorem ofTrees_eq (ts : List ParseTree) : ofTrees s ts = ts.map (ofTree s) := by
  induction ts with
  | nil => rfl
  | cons t ts ih => rw [ofTrees, ih, List.map_cons]

theorem ofTree_eq (t : ParseTree) :
    ofTree s t = ⟨t, assemble s t (t.children.map (ofTree s)), t.children.map (ofTree s)⟩ := by
  rcases t with ⟨kind, start, stop, isNamed, isExtra, isError, isMissing, children, fields⟩
  rw [ofTree, ofTrees_eq]

@[simp] theorem ofTree_tree (t : ParseTree) : (ofTree s t).tree = t := by rw [ofTree_eq]

@[simp] theorem ofTree_parts (t : ParseTree) :
    (ofTree s t).parts = t.children.map (ofTree s) := by rw [ofTree_eq]

theorem ofTree_node (t : ParseTree) :
    (ofTree s t).node = assemble s t (t.children.map (ofTree s)) := by rw [ofTree_eq]

@[simp] theorem isContent_ofTree (t : ParseTree) : (ofTree s t).isContent = t.isContent := by
  rw [isContent, ofTree_tree, ParseTree.isContent]

theorem content_ofTree (t : ParseTree) :
    content (t.children.map (ofTree s)) = t.content.map (ofTree s) := by
  rw [content, ParseTree.content, List.filter_map]
  exact congrArg (List.map _) (List.filter_congr fun c _ => isContent_ofTree c)

theorem fieldIn?_ofTree (t : ParseTree) (name : String) :
    fieldIn? t (t.children.map (ofTree s)) name = (t.field? name).map (ofTree s) := by
  rw [fieldIn?, ParseTree.field?, Option.map_bind]
  exact congrArg (Option.bind _) (funext fun i => List.getElem?_map)

theorem fieldOrFirst?_ofTree (t : ParseTree) (name : String) :
    fieldOrFirst? t (t.children.map (ofTree s)) name = (t.fieldOrFirst? name).map (ofTree s) := by
  rw [fieldOrFirst?, ParseTree.fieldOrFirst?, fieldIn?_ofTree, content_ofTree, List.head?_map]
  cases t.field? name <;> rfl

private theorem unwrapAll_ofTree (ts : List ParseTree) :
    unwrapAll (ts.map (ofTree s)) =
      (ts.filter ParseTree.isContent).map fun c => unwrap (ofTree s c) := by
  induction ts with
  | nil => rfl
  | cons t ts ih =>
    rw [List.map_cons, unwrapAll, isContent_ofTree, ih, List.filter_cons]
    split <;> rfl

/-- A wrapper around one expression is gone through, and nothing else. -/
theorem unwrap_ofTree (t : ParseTree) :
    unwrap (ofTree s t) =
      if t.kind = "expression" then
        match t.content with
        | [c] => unwrap (ofTree s c)
        | _ => ofTree s t
      else ofTree s t := by
  rw [ofTree_eq, unwrap, unwrapAll_ofTree, ParseTree.content]
  rcases t.children.filter ParseTree.isContent with _ | ⟨c, _ | ⟨d, cs⟩⟩ <;> rfl

/-- The argument itself, or its wrapper if that holds more or less than one expression. -/
theorem argument_ofTree (t : ParseTree) :
    (ofTree s t).argument =
      match t.content with
      | [c] => (ofTree s c).node
      | _ => (ofTree s t).node := by
  rw [argument, ofTree_parts, content_ofTree]
  rcases t.content with _ | ⟨c, _ | ⟨d, cs⟩⟩ <;> rfl

theorem argumentsIn_ofTree (t : ParseTree) :
    argumentsIn (t.children.map (ofTree s)) =
      t.callArguments.map fun c => (ofTree s c).argument := by
  rw [argumentsIn, content_ofTree, ParseTree.callArguments, List.filter_map, List.map_map]
  simp only [Function.comp_def, ofTree_tree]

end Lowered

end ContractAtlas
