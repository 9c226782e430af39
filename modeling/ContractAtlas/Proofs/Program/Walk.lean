import ContractAtlas.Program.Node

/-! The two ways through a tree: the walk with ancestors and the stack of nodes still to visit. -/
namespace ContractAtlas.Node

/-- Induction on a tree, with the hypothesis for every child. -/
@[induction_eliminator] theorem induct {P : Node → Prop}
    (node : ∀ kind span excerpt children, (∀ c ∈ children, P c) → P ⟨kind, span, excerpt, children⟩)
    (n : Node) : P n :=
  @Node.rec P (fun ns => ∀ c ∈ ns, P c) node (fun _ hc => nomatch hc)
    (fun _ _ hn hns _ hc => (List.mem_cons.1 hc).elim (fun he => he ▸ hn) (hns _)) n

/-- Draining a list of trees visits each of them as a walk does, before the rest of the stack. -/
private theorem drain_walkAll {ns : List Node} (hns : ∀ c ∈ ns, ∀ a i steps stack,
      drain (c.size + steps) (c :: stack) = (walkFrom a i c).map Visit.node ++ drain steps stack)
    (a : List Node) (i steps : Nat) (stack : List Node) :
    drain (sizeAll ns + steps) (ns ++ stack) =
      (walkAll a i ns).map Visit.node ++ drain steps stack := by
  induction ns generalizing i with
  | nil => rw [sizeAll, Nat.zero_add, walkAll, List.nil_append, List.map_nil, List.nil_append]
  | cons c cs ih =>
    rw [sizeAll, Nat.add_assoc, List.cons_append, hns c List.mem_cons_self a i, walkAll,
      List.map_append, List.append_assoc, ih fun d hd => hns d (List.mem_cons_of_mem _ hd)]

private theorem drain_walkFrom (n : Node) (a : List Node) (i steps : Nat) (stack : List Node) :
    drain (n.size + steps) (n :: stack) = (walkFrom a i n).map Visit.node ++ drain steps stack := by
  induction n generalizing a i steps stack with
  | node kind span excerpt children ih =>
    rw [size, Nat.add_right_comm, drain, walkFrom, List.map_cons, List.cons_append]
    exact congrArg _ (drain_walkAll ih _ 0 steps stack)

/-- Both ways visit the same nodes in the same order. -/
theorem map_node_walkFrom (n : Node) (a : List Node) (i : Nat) :
    (walkFrom a i n).map Visit.node = n.descendants := by
  have h := drain_walkFrom n a i 0 []
  rw [Nat.add_zero, drain, List.append_nil] at h
  exact h.symm

theorem map_node_walk (n : Node) : n.walk.map Visit.node = n.descendants := n.map_node_walkFrom [] 0

private theorem map_node_walkAll (ns a : List Node) (i : Nat) :
    (walkAll a i ns).map Visit.node = ns.flatMap descendants := by
  induction ns generalizing i with
  | nil => rfl
  | cons n ns ih => rw [walkAll, List.map_append, map_node_walkFrom, ih, List.flatMap_cons]

theorem descendants_eq (n : Node) : n.descendants = n :: n.children.flatMap descendants := by
  rw [← map_node_walk, walk]
  rcases n with ⟨kind, span, excerpt, children⟩
  rw [walkFrom, List.map_cons, map_node_walkAll]

theorem self_mem_descendants (n : Node) : n ∈ n.descendants := by
  rw [descendants_eq]
  exact List.mem_cons_self

theorem forall_mem_descendants {P : Node → Prop} {n : Node} :
    (∀ m ∈ n.descendants, P m) ↔ P n ∧ ∀ c ∈ n.children, ∀ m ∈ c.descendants, P m := by
  rw [descendants_eq, List.forall_mem_cons, List.forall_mem_flatMap]

theorem mem_descendants_of_child {n m c : Node} (hm : m ∈ n.descendants) (hc : c ∈ m.children) :
    c ∈ n.descendants := by
  induction n with
  | node kind span excerpt children ih =>
    rw [descendants_eq] at hm ⊢
    refine List.mem_cons_of_mem _ (List.mem_flatMap.2 ?_)
    rcases List.mem_cons.1 hm with rfl | hm
    · exact ⟨c, hc, c.self_mem_descendants⟩
    · obtain ⟨d, hd, hm⟩ := List.mem_flatMap.1 hm
      exact ⟨d, hd, ih d hd hm⟩

theorem calls_eq (n : Node) :
    n.calls = (n.walk.filter fun v => v.node.isCall).map Visit.node := by
  rw [calls, ← map_node_walk, List.filter_map]
  rfl

private theorem forall_mem_walkAll {P : Node → Prop} {R : Node → Node → Prop} {ns : List Node}
    (hns : ∀ c ∈ ns, ∀ a i, (∀ parent ∈ a.getLast?, R parent c) → P c →
      ∀ v ∈ walkFrom a i c, P v.node ∧ ∀ parent ∈ v.ancestors.getLast?, R parent v.node)
    {a : List Node} (hparent : ∀ c ∈ ns, ∀ parent ∈ a.getLast?, R parent c) (hP : ∀ c ∈ ns, P c)
    (i : Nat) :
    ∀ v ∈ walkAll a i ns, P v.node ∧ ∀ parent ∈ v.ancestors.getLast?, R parent v.node := by
  induction ns generalizing i with
  | nil => exact fun _ hv => nomatch hv
  | cons c cs ih =>
    intro v hv
    rcases List.mem_append.1 hv with hv | hv
    · exact hns c List.mem_cons_self a i (hparent c List.mem_cons_self)
        (hP c List.mem_cons_self) v hv
    · exact ih (fun d hd => hns d (List.mem_cons_of_mem _ hd))
        (fun d hd => hparent d (List.mem_cons_of_mem _ hd))
        (fun d hd => hP d (List.mem_cons_of_mem _ hd)) (i + 1) v hv

/-- What holds of a tree and passes from every node to its children holds of every node that a walk
meets, and so does what holds between every node and its children. -/
theorem forall_mem_walk {P : Node → Prop} {R : Node → Node → Prop}
    (hstep : ∀ n, P n → ∀ c ∈ n.children, P c ∧ R n c) {n : Node} (hn : P n) :
    ∀ v ∈ n.walk, P v.node ∧ ∀ parent ∈ v.ancestors.getLast?, R parent v.node := by
  have hfrom : ∀ a i, (∀ parent ∈ a.getLast?, R parent n) → P n →
      ∀ v ∈ walkFrom a i n, P v.node ∧ ∀ parent ∈ v.ancestors.getLast?, R parent v.node := by
    clear hn
    induction n with
    | node kind span excerpt children ih =>
      intro a i hparent hn v hv
      rcases List.mem_cons.1 hv with rfl | hv
      · exact ⟨hn, hparent⟩
      · refine forall_mem_walkAll ih (fun c hc parent hp => ?_)
          (fun c hc => (hstep _ hn c hc).1) 0 v hv
        rw [List.getLast?_concat] at hp
        cases hp
        exact (hstep _ hn c hc).2
  exact hfrom [] 0 (fun _ hp => nomatch hp) hn

end ContractAtlas.Node
