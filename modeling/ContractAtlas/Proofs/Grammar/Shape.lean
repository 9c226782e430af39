import ContractAtlas.Proofs.Call.Frame
import ContractAtlas.Proofs.Grammar.Exactness

/-! The shape of lowered trees: names, literals and types hold nothing, and a member access holds
its object only. -/
namespace ContractAtlas

/-- The most children that a form has, if there is a limit. -/
def NodeKind.limit : NodeKind → Option Nat
  | .identifier _ | .literal _ | .elementaryType _ | .creation _ | .assembly => some 0
  | .memberAccess _ => some 1
  | _ => none

namespace Node

/-- The node keeps to the limit of its kind. -/
def Fits (n : Node) : Prop := ∀ limit ∈ n.kind.limit, n.children.length ≤ limit

/-- All nodes of the tree do. -/
def AllFit (n : Node) : Prop := ∀ m ∈ n.descendants, m.Fits

theorem fits_of_unlimited {n : Node} (h : n.kind.limit = none) : n.Fits := by
  intro limit hlimit
  rw [h] at hlimit
  cases hlimit

theorem fits_of_childless {n : Node} (h : n.children = []) : n.Fits := by
  intro limit _
  rw [h]
  exact Nat.zero_le limit

theorem AllFit.child {n c : Node} (h : n.AllFit) (hc : c ∈ n.children) : c.AllFit :=
  (forall_mem_descendants.1 h).2 c hc

theorem AllFit.childless {n : Node} (h : n.AllFit) (hlimit : n.kind.limit = some 0) :
    n.children = [] :=
  List.eq_nil_of_length_eq_zero (Nat.le_zero.1 (h n n.self_mem_descendants 0 hlimit))

theorem allFit_unclassified {n : Node} : n.unclassified.AllFit ↔ n.AllFit := by
  have hfits : ∀ m : Node, (m.relabel NodeKind.unclassified id).Fits ↔ m.Fits := by
    intro m
    have hkind : (m.relabel NodeKind.unclassified id).kind.limit = m.kind.limit := by
      rw [relabel_kind]
      cases m.kind <;> rfl
    rw [Fits, Fits, hkind, relabel_children, List.length_map]
  rw [AllFit, unclassified, descendants_relabel, List.forall_mem_map]
  exact forall₂_congr fun m _ => hfits m

/-- Classifying calls neither adds nor takes away nodes. -/
theorem AllFit.classifyCalls {n : Node} (h : n.AllFit) (settings : Settings) (s : Scope)
    (emitted : Option Text) :
    (n.classifyCalls settings s emitted).AllFit := by
  rw [← allFit_unclassified, unclassified_classifyCalls, allFit_unclassified]
  exact h

theorem isStatement_classifyCalls (settings : Settings) (s : Scope)
    (emitted : Option Text) (n : Node) :
    (n.classifyCalls settings s emitted).isStatement = n.isStatement := by
  rcases n with ⟨kind, span, excerpt, children⟩
  rw [classifyCalls_mk]
  cases kind <;> rfl

end Node

namespace Lowered
variable {s : TreeSource} {t : ParseTree}

/-- What the root of a lowered tree can be. -/
inductive Root (s : TreeSource) (t : ParseTree) (n : Node) : Prop
  | inner (h : Drawn s t n)
  | leaf (h : n.children = [])
  | member (member : String) (hkind : n.kind = .memberAccess member) (h : n.children.length ≤ 1)
  | emit (invocation : Node) (h : n.children = [invocation]) (hcall : invocation.isCall = true)
      (hfresh : invocation.callKind? = none) (hlimit : n.kind.limit = none)
  | other (hlimit : n.kind.limit = none) (hemit : ∀ event, n.kind ≠ .emit event)

theorem root_onlyContent : Root s t (onlyContent s t (t.children.map (ofTree s))) := by
  rw [onlyContent, content_ofTree]
  rcases hcontent : t.content with _ | ⟨c, _ | ⟨d, cs⟩⟩
  · exact .other rfl fun _ => NodeKind.noConfusion
  · exact .inner (drawn_of_child (t.content_subset (hcontent ▸ List.mem_cons_self)))
  · exact .other rfl fun _ => NodeKind.noConfusion

theorem root_block (parts : List Lowered) : Root s t (block s t parts) := by
  rw [block, nodeOver]
  split <;> exact .other rfl fun _ => NodeKind.noConfusion

theorem root_emit (parts : List Lowered) : Root s t (emit s t parts) := by
  rw [emit]
  split
  · exact .leaf rfl
  · exact .emit _ rfl rfl rfl rfl

theorem root_call (parts : List Lowered) : Root s t (call s t parts) := by
  rw [call]
  split <;> exact .other rfl fun _ => NodeKind.noConfusion

theorem root_memberAccess (parts : List Lowered) : Root s t (memberAccess s t parts) := by
  refine .member _ rfl ?_
  rw [memberAccess, nodeOver]
  cases fieldOrFirst? t parts "object" with
  | none => exact Nat.zero_le 1
  | some object => exact Nat.le_refl 1

theorem root_assemble (t : ParseTree) : Root s t (assemble s t (t.children.map (ofTree s))) := by
  unfold assemble
  split
  all_goals first
    | exact root_onlyContent
    | exact root_block _
    | exact root_emit _
    | exact root_call _
    | exact root_memberAccess _
    | exact .leaf rfl
    | exact .other rfl fun _ => NodeKind.noConfusion

theorem Root.fits {n : Node} (hn : Root s t n) (hbelow : ∀ m, Drawn s t m → m.Fits) : n.Fits := by
  cases hn with
  | inner h => exact hbelow n h
  | leaf h => exact Node.fits_of_childless h
  | member member hkind h =>
    intro limit hlimit
    rw [hkind] at hlimit
    cases hlimit
    exact h
  | emit _ _ _ _ hlimit => exact Node.fits_of_unlimited hlimit
  | other hlimit _ => exact Node.fits_of_unlimited hlimit

/-- What holds of the root of an assembled tree, of the nodes below and of the calls and leaves that
are put in holds everywhere in the tree. -/
theorem Assembled.forall_mem_descendants {P : Node → Prop} {n : Node}
    (hn : Assembled s t n) (hroot : P n)
    (hcall : ∀ site span excerpt children, P ⟨.call site, span, excerpt, children⟩)
    (hleaf : ∀ kind span excerpt, P ⟨kind, span, excerpt, []⟩)
    (hbelow : ∀ m, Drawn s t m → ∀ x ∈ m.descendants, P x) : ∀ x ∈ n.descendants, P x := by
  cases hn with
  | whole hchildren =>
    exact Node.forall_mem_descendants.2 ⟨hroot, fun m hm => hbelow m (hchildren m hm)⟩
  | inner hn => exact hbelow n hn
  | event _ hname harguments =>
    refine Node.forall_mem_descendants.2 ⟨hroot, fun m hm => ?_⟩
    cases List.mem_singleton.1 hm
    refine Node.forall_mem_descendants.2 ⟨hcall _ _ _ _, fun m hm => ?_⟩
    rcases List.mem_cons.1 hm with rfl | hm
    · exact hbelow _ (drawn_of_child (ParseTree.mem_children_of_fieldOrFirst? hname))
    · obtain ⟨a, ha, -, x, hx, rfl⟩ := harguments m hm
      exact hbelow _ ⟨a, t.content_subset ha, x, hx, rfl⟩
  | conversion harguments =>
    refine Node.forall_mem_descendants.2 ⟨hroot, fun m hm => ?_⟩
    rcases List.mem_cons.1 hm with rfl | hm
    · exact Node.forall_mem_descendants.2 ⟨hleaf _ _ _, fun _ hc => nomatch hc⟩
    · exact hbelow m (harguments m hm)

/-- What holds of the root of every lowered tree holds everywhere in lowered trees. -/
theorem forall_mem_descendants_ofTree {P : Node → Prop}
    (hcall : ∀ site span excerpt children, P ⟨.call site, span, excerpt, children⟩)
    (hleaf : ∀ kind span excerpt, P ⟨kind, span, excerpt, []⟩)
    (hroot : ∀ t n, Root s t n → (∀ m, Drawn s t m → P m) → P n)
    (x : ParseTree) : ∀ m ∈ (ofTree s x).node.descendants, P m := by
  have hsubtrees : ∀ t : ParseTree, ∀ x ∈ t.subtrees, ∀ m ∈ (ofTree s x).node.descendants, P m := by
    intro t
    induction t with
    | tree t ih =>
      intro x hx
      have hdrawn : ∀ n, Drawn s t n → ∀ m ∈ n.descendants, P m := by
        rintro n ⟨c, hc, y, hy, rfl⟩
        exact ih c hc y hy
      rcases ParseTree.mem_subtrees.1 hx with rfl | ⟨c, hc, hx⟩
      · rw [ofTree_node]
        have hassembled : P (assemble s x (x.children.map (ofTree s))) :=
          hroot x _ (root_assemble x) fun n hn => hdrawn n hn n n.self_mem_descendants
        exact (assembled_assemble x).forall_mem_descendants hassembled hcall hleaf hdrawn
      · exact ih c hc x hx
  exact hsubtrees x x x.self_mem_subtrees

theorem allFit_ofTree (x : ParseTree) : (ofTree s x).node.AllFit :=
  forall_mem_descendants_ofTree (fun _ _ _ _ => Node.fits_of_unlimited rfl)
    (fun _ _ _ => Node.fits_of_childless rfl) (fun _ _ hn => hn.fits) x

/-- A tree that may be a body is lowered to a block. -/
theorem isStatement_of_isBody {x : ParseTree} (h : x.isBody = true) :
    (ofTree s x).node.isStatement = true := by
  have hblock : (ofTree s x).node = block s x (x.children.map (ofTree s)) := by
    rw [ofTree_node, assemble]
    rcases Bool.or_eq_true_iff.1 h with hkind | hkind
    · rw [eq_of_beq hkind]; rfl
    · rw [eq_of_beq hkind]; rfl
  rw [hblock, block, nodeOver, Node.isStatement]
  split <;> rfl

end Lowered

end ContractAtlas
