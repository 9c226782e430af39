import ContractAtlas.Call.Statistics
import ContractAtlas.Proofs.Program.Paths
import Mathlib.Algebra.BigOperators.Group.List.Basic
import Mathlib.Algebra.GroupWithZero.Nat

/-! Statistics of a function count every call of its body once. The calls are those that a stack of
nodes still to visit gives, those that a walk with ancestors gives, and those at the ends of the
paths of the tree. -/
namespace ContractAtlas

namespace CallKind

/-- Everything in a list of kinds is counted under one kind and no other. -/
theorem sum_count_all (ks : List CallKind) : (all.map fun k => ks.count k).sum = ks.length := by
  induction ks with
  | nil => rfl
  | cons k ks ih =>
    have hone : (all.map fun k' => if k == k' then 1 else 0).sum = 1 := by cases k <;> rfl
    simp only [List.count_cons, List.sum_map_add, ih, hone, List.length_cons]

variable (count : CallKind → Nat)

theorem sum_nonzero (ks : List CallKind) :
    (((ks.map fun k => (k, count k)).filter fun entry => entry.2 != 0).map Prod.snd).sum =
      (ks.map count).sum := by
  induction ks with
  | nil => rfl
  | cons k ks ih =>
    by_cases hk : count k = 0
    · simpa [hk] using ih
    · simpa [hk] using ih

theorem lookup_nonzero (ks : List CallKind) (k : CallKind) :
    (((ks.map fun k => (k, count k)).filter fun entry => entry.2 != 0).lookup k).getD 0 =
      if k ∈ ks then count k else 0 := by
  induction ks with
  | nil => rfl
  | cons k' ks ih =>
    by_cases hk : k = k'
    · subst hk
      by_cases hzero : count k = 0
      · simp [hzero, ih]
      · simp [hzero]
    · have hne : (k == k') = false := beq_eq_false_iff_ne.2 hk
      by_cases hzero : count k' = 0
      · simp [hzero, hk, ih]
      · simp [hzero, hk, List.lookup_cons, hne, ih]

end CallKind

/-- What is picked and read on one side of a relation between lists is picked and read on the
other. -/
private theorem filterMap_filter_of_forall₂ {α β γ : Type} {R : α → β → Prop} {P : α → Bool}
    {Q : β → Bool} {f : α → Option γ} {g : β → γ} (hpick : ∀ a b, R a b → P a = Q b)
    (hread : ∀ a b, R a b → f a = some (g b))
    {as : List α} {bs : List β} (h : List.Forall₂ R as bs) :
    (as.filter P).filterMap f = (bs.filter Q).map g := by
  induction h with
  | nil => rfl
  | @cons a b as bs hab _ ih =>
    rw [List.filter_cons, List.filter_cons, hpick a b hab]
    cases Q b with
    | false => exact ih
    | true => simpa [hread a b hab] using ih

namespace Node
variable {n : Node} {path : List Nat} {v : Visit}

/-- The path passes through a try statement before it ends. -/
def passesTry (n : Node) (path : List Nat) : Bool :=
  (List.range path.length).any fun k => (n.nodeAt? (path.take k)).any fun a =>
    a.kind == .tryStatement

theorem Meets.passesTry (h : n.Meets [] 0 path v) :
    n.passesTry path = v.ancestors.any fun a => a.kind == .tryStatement := by
  have hany :=
    congrArg (fun as => as.any fun o => o.any fun a : Node => a.kind == .tryStatement) h.ancestors
  simp only [List.map_nil, List.nil_append, List.any_map, Function.comp_def] at hany
  exact hany.symm

/-- The calls inside try statements, read off the paths of the tree. -/
theorem guardedCalls_eq (body : Node) :
    body.callStatistics.guardedCalls =
      (body.paths.filter fun path => (body.nodeAt? path).any isCall &&
        body.passesTry path).filterMap
        fun path => (body.nodeAt? path).map text := by
  rw [callStatistics, List.filter_filter]
  refine (filterMap_filter_of_forall₂ (fun path v h => ?_) (fun path v h => ?_)
    body.walk_paths).symm
  · rw [h.node, h.passesTry, Option.any_some, Bool.and_comm]
  · rw [h.node, Option.map_some]

theorem total_eq (body : Node) : body.callStatistics.total = body.calls.length := by
  rw [calls_eq, List.length_map]
  rfl

theorem kinds_eq (body : Node) :
    body.callStatistics.kinds = (CallKind.all.map fun k => (k, body.calls.countP fun c =>
      c.callKind?.getD .unknown == k)).filter fun entry => entry.2 != 0 := by
  rw [callStatistics, calls_eq]
  simp only [List.count, List.countP_map, Function.comp_def]

end Node

namespace Function

/-- A walk and a stack of nodes still to visit go through the body alike: they come to the end of
every path of the tree, in the dictionary order of the paths, so each node before its children, and
the walk hands each node the nodes that the path to it passes, from the root down. The statistics
count the calls met there, each once and under its own kind, and list the texts of those below a try
statement in the same order. -/
theorem callStatistics_exact {f : Function} {body : Node} (h : f.body = some body) :
    body.descendants = body.walk.map Node.Visit.node ∧
      body.paths.map body.nodeAt? = body.descendants.map some ∧
      (∀ path, path ∈ body.paths ↔ (body.nodeAt? path).isSome = true) ∧
      body.paths.Pairwise (· < ·) ∧
      List.Forall₂ (body.Meets [] 0) body.paths body.walk ∧
      f.callStatistics.total = (body.descendants.filter Node.isCall).length ∧
      (f.callStatistics.kinds.map Prod.snd).sum = f.callStatistics.total ∧
      (∀ k, (f.callStatistics.kinds.lookup k).getD 0 =
        (body.descendants.filter Node.isCall).countP fun c => c.callKind?.getD .unknown == k) ∧
      f.callStatistics.guardedCalls =
        (body.paths.filter fun path => (body.nodeAt? path).any Node.isCall &&
          body.passesTry path).filterMap
          fun path => (body.nodeAt? path).map Node.text := by
  have hf : f.callStatistics = body.callStatistics := by
    rw [callStatistics, h, Option.map_some, Option.getD_some]
  rw [hf]
  refine ⟨body.map_node_walk.symm, body.map_nodeAt?_paths,
    fun _ => Node.mem_paths_iff, body.pairwise_paths, body.walk_paths, body.total_eq, ?_,
      fun k => ?_, body.guardedCalls_eq⟩
  · have hcounts := CallKind.sum_count_all (body.calls.map fun c => c.callKind?.getD .unknown)
    rw [body.kinds_eq, CallKind.sum_nonzero, body.total_eq]
    simpa only [List.count, List.countP_map, Function.comp_def, List.length_map] using hcounts
  · rw [body.kinds_eq, CallKind.lookup_nonzero, if_pos k.mem_all]
    rfl

end Function

namespace Sample

private def attemptText : Text := "try a.g(h()) \x7b\x7d catch \x7b\x7d m();".toList

private def attemptCall (start stop : Nat) (kind : Option CallKind) (arguments : List Node) :
    Node :=
  { kind := .call { callee := .other "", kind := kind }
    excerpt := ⟨attemptText, start, stop⟩
    children := { kind := .identifier "" } :: arguments }

/-- Two calls in a try statement, one of them an argument of the other, and a third behind it. -/
def attemptBody : Node :=
  { kind := .block
    children := [
      { kind := .tryStatement
        children := [
          attemptCall 4 12 (some .external) [attemptCall 8 11 none []], { kind := .block },
          { kind := .catchClause, children := [{ kind := .block }] }] },
      { kind := .expressionStatement, children := [attemptCall 25 28 none []] }] }

def attempting : Function := { name := "f", body := some attemptBody }

end Sample

namespace Function

theorem callStatistics_exact_sample :
    Sample.attempting.body = some Sample.attemptBody ∧
      Sample.attempting.callStatistics.total = 3 ∧
      (Sample.attempting.callStatistics.kinds.map Prod.snd).sum = 3 ∧
      (Sample.attempting.callStatistics.kinds.lookup .unknown).getD 0 = 2 ∧
      Sample.attempting.callStatistics.guardedCalls = ["a.g(h())".toList, "h()".toList] ∧
      ([0, 0, 1] ∈ Sample.attemptBody.paths ↔
        (Sample.attemptBody.nodeAt? [0, 0, 1]).isSome = true) := by
  have hbody : Sample.attempting.body = some Sample.attemptBody := rfl
  obtain ⟨-, -, hmem, -, -, htotal, hsum, hkinds, hguarded⟩ := callStatistics_exact hbody
  have hthree : Sample.attempting.callStatistics.total = 3 := htotal.trans (by decide)
  exact ⟨hbody, hthree, hsum.trans hthree, (hkinds .unknown).trans (by decide),
    hguarded.trans (by decide +kernel), hmem _⟩

end Function

end ContractAtlas
