import ContractAtlas.Flow.Graph
import Mathlib.Data.List.Chain
import Mathlib.Data.List.Nodup

/-! Paths in a flow graph. What is listed from one number to another are the paths that come to no
number twice, up to the given length. -/
namespace ContractAtlas

namespace FlowGraph

/-- Some edge runs from `a` to `b`. -/
def Joined (g : FlowGraph) (a b : Nat) : Prop := ∃ e ∈ g.edges, e.source = a ∧ e.target = b

theorem mem_steps {g : FlowGraph} {a b : Nat} : (a, b) ∈ g.steps ↔ g.Joined a b := by
  simp only [steps, Joined, List.mem_map, Prod.mk.injEq]

theorem mem_backSteps {g : FlowGraph} {a b : Nat} : (a, b) ∈ g.backSteps ↔ g.Joined b a := by
  simp only [backSteps, Joined, List.mem_map, Prod.mk.injEq, and_comm]

theorem mem_steps_eq (g : FlowGraph) : (fun a b => (a, b) ∈ g.steps) = g.Joined := by
  funext a b
  exact propext mem_steps

theorem mem_backSteps_eq (g : FlowGraph) :
    (fun a b => (a, b) ∈ g.backSteps) = fun a b => g.Joined b a := by
  funext a b
  exact propext mem_backSteps

/-- Numbers from `source` to `target`, each related to the next one. -/
structure IsPath (r : Nat → Nat → Prop) (source target : Nat) (path : List Nat) : Prop where
  first : path.head? = some source
  last : path.getLast? = some target
  joined : path.IsChain r

/-- The number of steps of a path. -/
def stepCount (path : List Nat) : Nat := path.length - 1

/-- A path that comes to no number twice. -/
structure IsSimplePath (r : Nat → Nat → Prop) (source target : Nat) (path : List Nat) : Prop
    extends IsPath r source target path where
  distinct : path.Nodup

section Paths
variable {r : Nat → Nat → Prop} {a b c : Nat} {path : List Nat}

theorem IsPath.exists_eq_cons (h : IsPath r a c path) : ∃ rest, path = a :: rest :=
  List.head?_eq_some_iff.1 h.first

theorem IsPath.length_pos (h : IsPath r a c path) : 0 < path.length := by
  obtain ⟨rest, rfl⟩ := h.exists_eq_cons
  exact Nat.succ_pos _

theorem IsPath.source_mem (h : IsPath r a c path) : a ∈ path := by
  obtain ⟨rest, rfl⟩ := h.exists_eq_cons
  exact List.mem_cons_self

theorem isPath_singleton (r : Nat → Nat → Prop) (a : Nat) : IsPath r a a [a] :=
  ⟨rfl, rfl, .singleton a⟩

theorem IsPath.cons (h : IsPath r b c path) (hab : r a b) : IsPath r a c (a :: path) := by
  obtain ⟨rest, rfl⟩ := h.exists_eq_cons
  exact ⟨rfl, h.last, .cons_cons hab h.joined⟩

theorem IsPath.concat (h : IsPath r a b path) (hbc : r b c) : IsPath r a c (path ++ [c]) := by
  refine ⟨?_, List.getLast?_concat, h.joined.append (.singleton c) ?_⟩
  · obtain ⟨rest, rfl⟩ := h.exists_eq_cons
    rfl
  · intro x hx y hy
    cases h.last.symm.trans hx
    cases hy
    exact hbc

/-- A path of more than one number starts with a step, and goes on from there. -/
theorem IsPath.tail {rest : List Nat} (h : IsPath r a c (a :: b :: rest)) :
    r a b ∧ IsPath r b c (b :: rest) := by
  obtain ⟨hab, hrest⟩ := List.isChain_cons_cons.1 h.joined
  exact ⟨hab, rfl, h.last, hrest⟩

/-- Induction on a path of at least one step: it is a single step, or a step before such a path. -/
theorem IsPath.stepInduction {P : Nat → List Nat → Prop} (single : ∀ a, r a c → P a [a, c])
    (step : ∀ a b rest, r a b → rest ≠ [] → P b (b :: rest) → P a (a :: b :: rest))
    (h : IsPath r a c path) (hlong : 1 ≤ stepCount path) : P a path := by
  induction path generalizing a with
  | nil => exact absurd hlong (Nat.not_succ_le_zero 0)
  | cons x path ih =>
    obtain rfl : x = a := Option.some.inj h.first
    cases path with
    | nil => exact absurd hlong (Nat.not_succ_le_zero 0)
    | cons b rest =>
      obtain ⟨hstep, htail⟩ := h.tail
      cases rest with
      | nil =>
        obtain rfl : b = c := Option.some.inj htail.last
        exact single x hstep
      | cons d rest =>
        exact step x b (d :: rest) hstep (List.cons_ne_nil d rest) (ih htail (Nat.succ_pos _))

theorem IsPath.transGen (h : IsPath r a c path) (hlong : 1 ≤ stepCount path) :
    Relation.TransGen r a c := by
  refine h.stepInduction (P := fun a _ => Relation.TransGen r a c) (fun a hstep => ?_) ?_ hlong
  · exact .single hstep
  · intro a b rest hstep _ hrest
    exact .head hstep hrest

theorem exists_isPath_of_transGen (h : Relation.TransGen r a c) :
    ∃ path, IsPath r a c path ∧ 1 ≤ stepCount path := by
  induction h with
  | single hab => exact ⟨_, (isPath_singleton r a).concat hab, Nat.le_refl 1⟩
  | tail _ hbc ih =>
    obtain ⟨path, hpath, -⟩ := ih
    refine ⟨_, hpath.concat hbc, ?_⟩
    have := hpath.length_pos
    rw [stepCount, List.length_append, List.length_singleton]
    omega

/-- A path stays where its source is and the steps lead. -/
theorem IsPath.forall_mem {P : Nat → Prop} (h : IsPath r a c path) (ha : P a)
    (hstep : ∀ x y, r x y → P y) : ∀ x ∈ path, P x := by
  refine List.IsChain.induction P path h.joined (fun x y hxy _ => hstep x y hxy) fun hne => ?_
  obtain ⟨rest, rfl⟩ := h.exists_eq_cons
  exact ha

theorem isSimplePath_singleton (r : Nat → Nat → Prop) (a : Nat) : IsSimplePath r a a [a] :=
  ⟨isPath_singleton r a, List.nodup_singleton a⟩

theorem IsSimplePath.cons (h : IsSimplePath r b c path) (hab : r a b) (ha : a ∉ path) :
    IsSimplePath r a c (a :: path) :=
  ⟨h.toIsPath.cons hab, List.nodup_cons.2 ⟨ha, h.distinct⟩⟩

/-- A simple path does not come back to its source. -/
theorem IsSimplePath.eq_singleton (h : IsSimplePath r a a path) : path = [a] := by
  obtain ⟨rest, rfl⟩ := h.exists_eq_cons
  cases rest with
  | nil => rfl
  | cons b rest =>
    have hlast : a ∈ b :: rest := List.mem_of_getLast? h.last
    exact absurd hlast (List.nodup_cons.1 h.distinct).1

/-- To another number a simple path goes by a step and a simple path that avoids the source. -/
theorem IsSimplePath.exists_tail (h : IsSimplePath r a c path) (hac : a ≠ c) :
    ∃ b rest, path = a :: rest ∧ r a b ∧ a ∉ rest ∧ IsSimplePath r b c rest := by
  obtain ⟨rest, rfl⟩ := h.exists_eq_cons
  cases rest with
  | nil => exact absurd (Option.some.inj h.last) hac
  | cons b rest =>
    obtain ⟨hab, hpath⟩ := h.toIsPath.tail
    obtain ⟨ha, hdistinct⟩ := List.nodup_cons.1 h.distinct
    exact ⟨b, b :: rest, rfl, hab, ha, hpath, hdistinct⟩

end Paths

section Listing
variable {steps : List (Nat × Nat)} {target depth current : Nat} {front found : List Nat}

/-- The paths that are listed behind `front` are the simple ones that avoid it. -/
theorem mem_pathsFrom_iff :
    found ∈ pathsFrom steps target depth current front ↔
      ∃ path, found = front ++ path ∧ IsSimplePath (fun a b => (a, b) ∈ steps) current target path ∧
        path.length ≤ depth ∧ ∀ x ∈ path, x ∉ front := by
  induction depth generalizing current front with
  | zero =>
    refine iff_of_false List.not_mem_nil ?_
    rintro ⟨path, -, hpath, hlength, -⟩
    have := hpath.length_pos
    omega
  | succ depth ih =>
    rw [pathsFrom]
    split
    · -- the path would come back to a number of `front`
      rename_i hmet
      refine iff_of_false List.not_mem_nil ?_
      rintro ⟨path, -, hpath, -, hnew⟩
      exact hnew current hpath.source_mem (List.contains_iff_mem.1 hmet)
    · rename_i hmet
      have hmet : current ∉ front := fun h => hmet (List.contains_iff_mem.2 h)
      split
      · rename_i htarget
        subst htarget
        rw [List.mem_singleton]
        constructor
        · rintro rfl
          refine ⟨[current], rfl, isSimplePath_singleton _ current, Nat.le_add_left 1 depth, ?_⟩
          exact List.forall_mem_singleton.2 hmet
        · rintro ⟨path, rfl, hpath, -⟩
          rw [hpath.eq_singleton]
      · rename_i htarget
        simp only [List.mem_flatMap, List.mem_filter, decide_eq_true_eq, ih]
        constructor
        · rintro ⟨step, ⟨hstep, rfl⟩, path, rfl, hpath, hlength, hnew⟩
          have hself : step.1 ∉ path := fun h => hnew step.1 h (by simp)
          refine ⟨step.1 :: path, by simp, hpath.cons hstep hself, Nat.succ_le_succ hlength, ?_⟩
          refine List.forall_mem_cons.2 ⟨hmet, fun x hx hfront => hnew x hx ?_⟩
          exact List.mem_append_left _ hfront
        · rintro ⟨path, rfl, hpath, hlength, hnew⟩
          obtain ⟨b, rest, rfl, hstep, hself, hrest⟩ := hpath.exists_tail htarget
          refine ⟨(current, b), ⟨hstep, rfl⟩,
            rest, by simp, hrest, Nat.le_of_succ_le_succ hlength, ?_⟩
          intro x hx hfront
          rcases List.mem_append.1 hfront with hfront | hfront
          · exact hnew x (List.mem_cons_of_mem _ hx) hfront
          · exact hself (List.mem_singleton.1 hfront ▸ hx)

/-- Without parallel steps no path is listed twice: paths that leave by different steps differ. -/
theorem nodup_pathsFrom (h : steps.Nodup) : (pathsFrom steps target depth current front).Nodup := by
  induction depth generalizing current front with
  | zero => exact .nil
  | succ depth ih =>
    rw [pathsFrom]
    split
    · exact .nil
    · split
      · exact List.nodup_singleton _
      · rw [List.nodup_flatMap]
        refine ⟨fun step _ => ih, (h.filter _).imp_of_mem ?_⟩
        intro step step' hstep hstep' hne found hfound hfound'
        obtain ⟨path, rfl, hpath, -⟩ := mem_pathsFrom_iff.1 hfound
        obtain ⟨path', heq, hpath', -⟩ := mem_pathsFrom_iff.1 hfound'
        have hsource : step.1 = step'.1 :=
          (of_decide_eq_true (List.mem_filter.1 hstep).2).trans
            (of_decide_eq_true (List.mem_filter.1 hstep').2).symm
        have htarget : step.2 = step'.2 := by
          apply Option.some.inj
          rw [← hpath.first, List.append_cancel_left heq, hpath'.first]
        exact hne (Prod.ext hsource htarget)

end Listing

/-- The paths listed from one number to another are exactly the simple paths along the edges of at
most `depth` numbers, and each is listed once if no two edges join the same numbers. -/
theorem paths_exact (g : FlowGraph) (source target depth : Nat) :
    (∀ path, path ∈ g.paths source target depth ↔
      IsSimplePath g.Joined source target path ∧ 1 ≤ path.length ∧ path.length ≤ depth) ∧
    (g.steps.Nodup → (g.paths source target depth).Nodup) := by
  refine ⟨fun path => ?_, nodup_pathsFrom⟩
  rw [paths, mem_pathsFrom_iff, mem_steps_eq]
  constructor
  · rintro ⟨path, rfl, hpath, hlength, -⟩
    exact ⟨hpath, hpath.length_pos, hlength⟩
  · rintro ⟨hpath, -, hlength⟩
    exact ⟨path, rfl, hpath, hlength, fun _ _ => List.not_mem_nil⟩

end FlowGraph

namespace Sample

/-- The graph with these edges. -/
def graphOf (steps : List (Nat × Nat)) : FlowGraph where
  edges := steps.map fun step => { source := step.1, target := step.2, kind := .direct }

/-- A cycle that is left at two places for a number with an edge to itself. -/
def looped : FlowGraph := graphOf [(0, 1), (1, 2), (2, 0), (0, 2), (1, 3), (2, 3), (3, 3)]

end Sample

namespace FlowGraph

theorem paths_exact_sample :
    Sample.looped.steps.Nodup ∧
      Sample.looped.paths 0 3 4 = [[0, 1, 2, 3], [0, 1, 3], [0, 2, 3]] ∧
      (Sample.looped.paths 0 3 4).Nodup ∧ IsSimplePath Sample.looped.Joined 0 3 [0, 1, 2, 3] := by
  have hdistinct : Sample.looped.steps.Nodup := by decide
  obtain ⟨hexact, honce⟩ := paths_exact Sample.looped 0 3 4
  exact ⟨hdistinct, by decide, honce hdistinct, ((hexact [0, 1, 2, 3]).1 (by decide)).1⟩

end FlowGraph

end ContractAtlas
