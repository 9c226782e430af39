import ContractAtlas.Grammar.Lowered
import ContractAtlas.Proofs.Program.Relabel

/-! Lowering under another file number: the trees that come out differ in the file numbers of their
spans and in nothing else, and no call of theirs is classified. -/
namespace ContractAtlas

namespace TreeSource

/-- The same file under another number. -/
def renumber (m : Nat → Nat) (s : TreeSource) : TreeSource := { s with file := m s.file }

end TreeSource

namespace Lowered

/-- Induction on a lowered tree, with the hypothesis for every part. -/
@[induction_eliminator] theorem induct {P : Lowered → Prop}
    (lowered : ∀ tree node parts, (∀ p ∈ parts, P p) → P ⟨tree, node, parts⟩) (l : Lowered) : P l :=
  @Lowered.rec P (fun ps => ∀ p ∈ ps, P p) lowered (fun _ hp => nomatch hp)
    (fun _ _ hp hps _ hq => (List.mem_cons.1 hq).elim (fun he => he ▸ hp) (hps _)) l

mutual

/-- The lowered tree with its nodes under other file numbers and without classifications. -/
def relabel (m : Nat → Nat) : Lowered → Lowered
  | ⟨tree, node, parts⟩ => ⟨tree, node.relabel NodeKind.unclassified m, relabelAll m parts⟩

def relabelAll (m : Nat → Nat) : List Lowered → List Lowered
  | [] => []
  | p :: ps => relabel m p :: relabelAll m ps

end

variable {m : Nat → Nat} {s : TreeSource}

theorem relabelAll_eq (m : Nat → Nat) (ps : List Lowered) :
    relabelAll m ps = ps.map (relabel m) := by
  induction ps with
  | nil => rfl
  | cons p ps ih => rw [relabelAll, ih, List.map_cons]

theorem relabel_mk (tree : ParseTree) (node : Node) (parts : List Lowered) :
    relabel m ⟨tree, node, parts⟩ =
      ⟨tree, node.relabel NodeKind.unclassified m, parts.map (relabel m)⟩ := by
  rw [relabel, relabelAll_eq]

@[simp] theorem relabel_tree (l : Lowered) : (l.relabel m).tree = l.tree := by
  cases l; rfl

@[simp] theorem relabel_node (l : Lowered) :
    (l.relabel m).node = l.node.relabel NodeKind.unclassified m := by
  cases l; rfl

@[simp] theorem relabel_parts (l : Lowered) : (l.relabel m).parts = l.parts.map (relabel m) := by
  cases l; rw [relabel_mk]

@[simp] theorem isContent_relabel (l : Lowered) : (l.relabel m).isContent = l.isContent := by
  rw [isContent, relabel_tree, isContent]

@[simp] theorem content_relabel (parts : List Lowered) :
    content (parts.map (relabel m)) = (content parts).map (relabel m) := by
  rw [content, content, List.filter_map]
  exact congrArg (List.map _) (List.filter_congr fun l _ => isContent_relabel l)

@[simp] theorem fieldIn?_relabel (t : ParseTree) (parts : List Lowered) (name : String) :
    fieldIn? t (parts.map (relabel m)) name = (fieldIn? t parts name).map (relabel m) := by
  rw [fieldIn?, fieldIn?, Option.map_bind]
  exact congrArg (Option.bind _) (funext fun i => List.getElem?_map)

@[simp] theorem field?_relabel (l : Lowered) (name : String) :
    (l.relabel m).field? name = (l.field? name).map (relabel m) := by
  rw [field?, relabel_tree, relabel_parts, fieldIn?_relabel, field?]

@[simp] theorem fieldOrFirst?_relabel (t : ParseTree) (parts : List Lowered) (name : String) :
    fieldOrFirst? t (parts.map (relabel m)) name =
      (fieldOrFirst? t parts name).map (relabel m) := by
  rw [fieldOrFirst?, fieldOrFirst?, fieldIn?_relabel, content_relabel, List.head?_map]
  cases fieldIn? t parts name <;> rfl

private theorem unwrapAll_relabel {ps : List Lowered}
    (hps : ∀ p ∈ ps, unwrap (p.relabel m) = (unwrap p).relabel m) :
    unwrapAll (ps.map (relabel m)) = (unwrapAll ps).map (relabel m) := by
  induction ps with
  | nil => rfl
  | cons p ps ih =>
    have hrest := ih fun q hq => hps q (List.mem_cons_of_mem _ hq)
    rw [List.map_cons, unwrapAll, unwrapAll, isContent_relabel, hrest, hps p List.mem_cons_self]
    split <;> rfl

@[simp] theorem unwrap_relabel (l : Lowered) : unwrap (l.relabel m) = (unwrap l).relabel m := by
  induction l with
  | lowered tree node parts ih =>
    rw [relabel_mk, unwrap, unwrap, unwrapAll_relabel ih]
    split
    · rcases unwrapAll parts with _ | ⟨q, _ | ⟨_, _⟩⟩
      · exact (relabel_mk ..).symm
      · rfl
      · exact (relabel_mk ..).symm
    · exact (relabel_mk ..).symm

/-- A node over the range of a tree is relabelled part by part, unless its kind holds a
classification. -/
theorem nodeOver_relabel (t : ParseTree) {kind : NodeKind} (hk : kind.unclassified = kind)
    (children : List Node) :
    nodeOver (s.renumber m) t kind (children.map (Node.relabel NodeKind.unclassified m)) =
      (nodeOver s t kind children).relabel NodeKind.unclassified m := by
  rw [nodeOver, nodeOver, Node.relabel_mk, hk]
  rfl

theorem map_node_relabel (parts : List Lowered) :
    (parts.map (relabel m)).map node =
      (parts.map node).map (Node.relabel NodeKind.unclassified m) := by
  rw [List.map_map, List.map_map]
  exact List.map_congr_left fun l _ => relabel_node l

theorem holding_relabel (t : ParseTree) {kind : NodeKind} (hk : kind.unclassified = kind)
    (parts : List Lowered) :
    nodeOver (s.renumber m) t kind (contentNodes (parts.map (relabel m))) =
      (nodeOver s t kind (contentNodes parts)).relabel NodeKind.unclassified m := by
  rw [contentNodes, content_relabel, map_node_relabel, nodeOver_relabel t hk]
  rfl

theorem other_relabel (t : ParseTree) (parts : List Lowered) :
    other (s.renumber m) t (parts.map (relabel m)) =
      (other s t parts).relabel NodeKind.unclassified m :=
  holding_relabel t rfl parts

theorem onlyContent_relabel (t : ParseTree) (parts : List Lowered) :
    onlyContent (s.renumber m) t (parts.map (relabel m)) =
      (onlyContent s t parts).relabel NodeKind.unclassified m := by
  rw [onlyContent, onlyContent, content_relabel, other_relabel]
  rcases content parts with _ | ⟨q, _ | ⟨_, _⟩⟩
  · rfl
  · exact relabel_node q
  · rfl

theorem argument_relabel (l : Lowered) :
    (l.relabel m).argument = l.argument.relabel NodeKind.unclassified m := by
  rw [argument, argument, relabel_parts, content_relabel, relabel_node]
  rcases content l.parts with _ | ⟨q, _ | ⟨_, _⟩⟩
  · rfl
  · exact relabel_node q
  · rfl

theorem argumentsIn_relabel (parts : List Lowered) :
    argumentsIn (parts.map (relabel m)) =
      (argumentsIn parts).map (Node.relabel NodeKind.unclassified m) := by
  rw [argumentsIn, argumentsIn, content_relabel, List.filter_map, List.map_map, List.map_map]
  simp only [Function.comp_def, relabel_tree, argument_relabel]

theorem operatorOf_relabel (t : ParseTree) (parts : List Lowered) :
    operatorOf (s.renumber m) t (parts.map (relabel m)) = operatorOf s t parts := by
  rw [operatorOf, operatorOf, fieldIn?_relabel, List.find?_map]
  cases fieldIn? t parts "operator" with
  | some p => exact congrArg s.nameOf (relabel_tree p)
  | none =>
    simp only [Option.map_none, Function.comp_def, relabel_tree]
    cases parts.find? fun p => !p.tree.isNamed with
    | none => rfl
    | some p => exact congrArg s.nameOf (relabel_tree p)

theorem declaredBy_relabel (l : Lowered) :
    declaredBy (s.renumber m) (l.relabel m) = declaredBy s l := by
  have hname : ∀ p : Lowered, (((p.relabel m).field? "name").map fun n =>
      (s.renumber m).nameOf n.tree) = (p.field? "name").map fun n => s.nameOf n.tree := fun p => by
    rw [field?_relabel, Option.map_map]
    exact congrArg (Option.map · _) (funext fun n => congrArg s.nameOf (relabel_tree n))
  simp only [declaredBy, relabel_tree, relabel_parts, content_relabel, List.flatMap_map, hname]
  rfl

theorem declaration_relabel (t : ParseTree) (parts : List Lowered) :
    declaration (s.renumber m) t (parts.map (relabel m)) =
      (declaration s t parts).relabel NodeKind.unclassified m := by
  simp only [declaration, content_relabel, List.flatMap_map, List.filter_map, Function.comp_def,
    declaredBy_relabel, map_node_relabel]
  exact nodeOver_relabel t rfl _

theorem forLoop_relabel (t : ParseTree) (parts : List Lowered) :
    forLoop (s.renumber m) t (parts.map (relabel m)) =
      (forLoop s t parts).relabel NodeKind.unclassified m := by
  have hnumbered : (parts.map (relabel m)).mapIdx (fun i p => (i, p)) =
      (parts.mapIdx fun i p => (i, p)).map fun x => (x.1, x.2.relabel m) := by
    apply List.ext_getElem?
    intro i
    simp only [List.getElem?_mapIdx, List.getElem?_map, Option.map_map, Function.comp_def]
  rw [forLoop, forLoop, ← nodeOver_relabel t rfl, hnumbered]
  simp only [List.filter_map, List.map_map, Function.comp_def, isContent_relabel, relabel_tree,
    relabel_node, argument_relabel, apply_ite (Node.relabel NodeKind.unclassified m)]

theorem emit_relabel (t : ParseTree) (parts : List Lowered) :
    emit (s.renumber m) t (parts.map (relabel m)) =
      (emit s t parts).relabel NodeKind.unclassified m := by
  rw [emit, emit, fieldOrFirst?_relabel]
  cases fieldOrFirst? t parts "name" with
  | none => exact nodeOver_relabel t rfl []
  | some name =>
    simp only [Option.map_some, relabel_tree, relabel_node, argumentsIn_relabel]
    rw [← nodeOver_relabel t rfl, List.map_singleton, Node.relabel_mk, List.map_cons]
    rfl

theorem call_relabel (t : ParseTree) (parts : List Lowered) :
    call (s.renumber m) t (parts.map (relabel m)) =
      (call s t parts).relabel NodeKind.unclassified m := by
  rw [call, call, fieldOrFirst?_relabel, Option.map_map]
  cases fieldOrFirst? t parts "function" with
  | none => exact other_relabel t parts
  | some f =>
    have hwrapped : (if f.unwrap.tree.kind = "struct_expression" then
          (fieldOrFirst? f.unwrap.tree (f.unwrap.parts.map (relabel m)) "type").map unwrap
        else none) = (if f.unwrap.tree.kind = "struct_expression" then
          (fieldOrFirst? f.unwrap.tree f.unwrap.parts "type").map unwrap else none).map
            (relabel m) := by
      split
      · rw [fieldOrFirst?_relabel, Option.map_map, Option.map_map]
        exact congrArg (Option.map · _) (funext unwrap_relabel)
      · rfl
    simp only [Option.map_some, Function.comp_apply, unwrap_relabel, relabel_tree, relabel_parts,
      hwrapped, argumentsIn_relabel]
    -- the callee is the wrapped expression when there are call options, else the function itself
    generalize (if f.unwrap.tree.kind = "struct_expression" then
      (fieldOrFirst? f.unwrap.tree f.unwrap.parts "type").map unwrap else none) = wrapped
    rw [← nodeOver_relabel t rfl, List.map_cons]
    cases wrapped with
    | none => simp only [Option.map_none, Option.getD_none, relabel_tree, relabel_node]; rfl
    | some inner => simp only [Option.map_some, Option.getD_some, relabel_tree, relabel_node]; rfl

/-- The callee that a conversion makes up for itself. -/
private theorem made_relabel (name : String) (span : Span) (excerpt : Excerpt) :
    (⟨if name = "payable" then .identifier name else .elementaryType name, span.renumber m, excerpt,
        []⟩ : Node) =
      Node.relabel NodeKind.unclassified m
        ⟨if name = "payable" then .identifier name else .elementaryType name, span,
          excerpt, []⟩ := by
  rw [Node.relabel_mk, apply_ite NodeKind.unclassified]
  rfl

theorem conversion_relabel (t : ParseTree) (parts : List Lowered) :
    conversion (s.renumber m) t (parts.map (relabel m)) =
      (conversion s t parts).relabel NodeKind.unclassified m := by
  rw [conversion, conversion, ← nodeOver_relabel t rfl, content_relabel]
  simp only [List.filter_map, Function.comp_def, relabel_tree, map_node_relabel, List.map_cons]
  refine congrArg (nodeOver _ t _ <| · :: _) ?_
  cases content parts with
  | nil =>
    refine Eq.trans ?_ (made_relabel ..)
    rfl
  | cons p ps =>
    simp only [List.map_cons, relabel_tree, relabel_node,
      apply_ite (Node.relabel NodeKind.unclassified m)]
    refine congrArg (ite _ _) (Eq.trans ?_ (made_relabel ..))
    rfl

theorem creation_relabel (t : ParseTree) (parts : List Lowered) :
    creation (s.renumber m) t (parts.map (relabel m)) =
      (creation s t parts).relabel NodeKind.unclassified m := by
  rw [creation, creation, fieldIn?_relabel]
  cases fieldIn? t parts "name" with
  | none => exact nodeOver_relabel t rfl []
  | some p =>
    simp only [Option.map_some, relabel_tree]
    exact nodeOver_relabel t rfl []

theorem memberAccess_relabel (t : ParseTree) (parts : List Lowered) :
    memberAccess (s.renumber m) t (parts.map (relabel m)) =
      (memberAccess s t parts).relabel NodeKind.unclassified m := by
  simp only [memberAccess, fieldIn?_relabel, fieldOrFirst?_relabel, Option.map_map,
    Function.comp_def, relabel_tree, relabel_node]
  rw [← nodeOver_relabel t rfl]
  cases fieldOrFirst? t parts "object" <;> rfl

theorem block_relabel (t : ParseTree) (parts : List Lowered) :
    block (s.renumber m) t (parts.map (relabel m)) =
      (block s t parts).relabel NodeKind.unclassified m := by
  simp only [block, List.head?_map, Option.map_map, Function.comp_def, relabel_tree]
  split
  · exact holding_relabel t rfl parts
  · exact holding_relabel t rfl parts

theorem assemble_relabel (t : ParseTree) (parts : List Lowered) :
    assemble (s.renumber m) t (parts.map (relabel m)) =
      (assemble s t parts).relabel NodeKind.unclassified m := by
  unfold assemble
  split
  all_goals first
    | exact onlyContent_relabel t parts
    | exact block_relabel t parts
    | exact declaration_relabel t parts
    | exact forLoop_relabel t parts
    | exact emit_relabel t parts
    | exact call_relabel t parts
    | exact conversion_relabel t parts
    | exact memberAccess_relabel t parts
    | exact creation_relabel t parts
    | exact other_relabel t parts
    | exact holding_relabel t rfl parts
    | exact nodeOver_relabel t rfl []
    | rw [operatorOf_relabel]; exact holding_relabel t rfl parts

mutual

/-- Lowering a tree under another file number changes the file numbers of its nodes, and no call
that comes out is classified. -/
theorem ofTree_renumber : ∀ t : ParseTree, ofTree (s.renumber m) t = (ofTree s t).relabel m
  | ⟨kind, start, stop, isNamed, isExtra, isError, isMissing, children, fields⟩ => by
    rw [ofTree, ofTree, relabel_mk, ofTrees_renumber children, assemble_relabel]

theorem ofTrees_renumber : ∀ ts : List ParseTree,
    ofTrees (s.renumber m) ts = (ofTrees s ts).map (relabel m)
  | [] => rfl
  | t :: ts => by rw [ofTrees, ofTrees, List.map_cons, ofTree_renumber t, ofTrees_renumber ts]

end

end Lowered

end ContractAtlas
