import ContractAtlas.Proofs.Reach
import Mathlib.Order.Lattice.Nat

/-! Distances in a graph, and the order in which a search by levels finds things: nearest first. -/
namespace ContractAtlas.Reach

/-- `b` lies at the end of a path of `n` steps from `a`. -/
inductive Steps {α : Type} (r : α → α → Prop) (a : α) : Nat → α → Prop
  | here : Steps r a 0 a
  | step {n : Nat} {b c : α} (hb : Steps r a n b) (hc : r b c) : Steps r a (n + 1) c

/-- The number of steps of a shortest path from `a` to `b`, if there is one. -/
noncomputable def distance {α : Type} (r : α → α → Prop) (a b : α) : Nat :=
  sInf {n | Steps r a n b}

section Distance
variable {α : Type} {r : α → α → Prop} {a b : α}

theorem Steps.exists_of_transGen {n : Nat} {c : α} (hc : Steps r a n c)
    (h : Relation.TransGen r c b) : ∃ m, Steps r a m b := by
  induction h with
  | single hd => exact ⟨n + 1, hc.step hd⟩
  | tail _ hd ih =>
    obtain ⟨m, hm⟩ := ih
    exact ⟨m + 1, hm.step hd⟩

theorem distance_le {n : Nat} (h : Steps r a n b) : distance r a b ≤ n := Nat.sInf_le h

theorem steps_distance (h : ∃ n, Steps r a n b) : Steps r a (distance r a b) b := Nat.sInf_mem h

theorem distance_eq {n : Nat} (h : Steps r a n b) (hleast : ∀ m < n, ¬ Steps r a m b) :
    distance r a b = n := by
  refine Nat.le_antisymm (distance_le h) (Nat.le_of_not_lt fun hlt => ?_)
  exact hleast _ hlt (steps_distance ⟨n, h⟩)

end Distance

section Layers
variable {α : Type} {next : α → List α} {a : α} {k : Nat} {seen frontier : List α}

/-- The search stands `k` steps away from `a`: the frontier holds what is at that distance, and all
that is no further away has been seen. -/
structure Layer (next : α → List α) (a : α) (k : Nat) (seen frontier : List α) : Prop where
  seen : ∀ b, b ∈ seen ↔ ∃ m ≤ k, Steps (fun x y => y ∈ next x) a m b
  frontier : ∀ b, b ∈ frontier ↔ Steps (fun x y => y ∈ next x) a k b ∧
    ∀ m < k, ¬ Steps (fun x y => y ∈ next x) a m b

namespace Layer

theorem start (next : α → List α) (a : α) : Layer next a 0 [a] [a] where
  seen b := by
    rw [List.mem_singleton]
    constructor
    · rintro rfl
      exact ⟨0, Nat.le_refl 0, .here⟩
    · rintro ⟨m, hm, h⟩
      cases Nat.le_zero.1 hm
      cases h
      rfl
  frontier b := by
    rw [List.mem_singleton]
    constructor
    · rintro rfl
      exact ⟨.here, fun m hm => absurd hm (Nat.not_lt_zero m)⟩
    · rintro ⟨h, -⟩
      cases h
      rfl

variable [BEq α] [LawfulBEq α]

/-- What the next level holds. A shortest path of one step more ends with a step from the frontier:
from anything nearer, the step would lead to something seen. -/
theorem mem_fresh_iff (h : Layer next a k seen frontier) (b : α) :
    b ∈ fresh (fun x => x) seen (frontier.flatMap next) ↔
      Steps (fun x y => y ∈ next x) a (k + 1) b ∧
        ∀ m < k + 1, ¬ Steps (fun x y => y ∈ next x) a m b := by
  rw [mem_fresh, List.mem_flatMap, h.seen]
  constructor
  · rintro ⟨⟨c, hc, hb⟩, hnew⟩
    refine ⟨((h.frontier c).1 hc).1.step hb, fun m hm hsteps => ?_⟩
    exact hnew ⟨m, Nat.le_of_lt_succ hm, hsteps⟩
  · rintro ⟨hsteps, hleast⟩
    constructor
    · cases hsteps with
      | @step _ c _ hc hb =>
        refine ⟨c, (h.frontier c).2 ⟨hc, fun m hm hs => ?_⟩, hb⟩
        exact hleast (m + 1) (Nat.succ_lt_succ hm) (hs.step hb)
    · rintro ⟨m, hm, hs⟩
      exact hleast m (Nat.lt_succ_of_le hm) hs

/-- One level takes the search one step further. -/
theorem advance (h : Layer next a k seen frontier) :
    Layer next a (k + 1) (fresh (fun x => x) seen (frontier.flatMap next) ++ seen)
      (fresh (fun x => x) seen (frontier.flatMap next)) where
  frontier := h.mem_fresh_iff
  seen b := by
    rw [List.mem_append, h.mem_fresh_iff, h.seen]
    constructor
    · rintro (⟨hsteps, -⟩ | ⟨m, hm, hsteps⟩)
      · exact ⟨k + 1, Nat.le_refl _, hsteps⟩
      · exact ⟨m, Nat.le_succ_of_le hm, hsteps⟩
    · rintro ⟨m, hm, hsteps⟩
      by_cases hseen : ∃ m ≤ k, Steps (fun x y => y ∈ next x) a m b
      · exact .inr hseen
      · have hlast : m = k + 1 :=
          Nat.le_antisymm hm (Nat.lt_of_not_le fun hle => hseen ⟨m, hle, hsteps⟩)
        subst hlast
        exact .inl ⟨hsteps, fun i hi hs => hseen ⟨i, Nat.le_of_lt_succ hi, hs⟩⟩

/-- What is still to be found is further away than the frontier. -/
theorem lt_distance (h : Layer next a k seen frontier) {steps : Nat} {b : α}
    (hb : b ∈ levels next steps seen frontier) :
    k < distance (fun x y => y ∈ next x) a b := by
  obtain ⟨c, hc, hpath⟩ := exists_path_of_mem_levels hb
  have hreached : ∃ n, Steps (fun x y => y ∈ next x) a n b :=
    ((h.frontier c).1 hc).1.exists_of_transGen hpath
  refine Nat.lt_of_not_le fun hle => not_mem_of_mem_levels hb ?_
  exact (h.seen b).2 ⟨_, hle, steps_distance hreached⟩

/-- The search finds what is near before what is far. -/
theorem pairwise_levels (h : Layer next a k seen frontier) (steps : Nat) :
    (levels next steps seen frontier).Pairwise fun x y =>
      distance (fun x y => y ∈ next x) a x ≤ distance (fun x y => y ∈ next x) a y := by
  induction steps generalizing k seen frontier with
  | zero => exact .nil
  | succ steps ih =>
    have hlevel : ∀ b ∈ fresh (fun x => x) seen (frontier.flatMap next),
        distance (fun x y => y ∈ next x) a b = k + 1 := by
      intro b hb
      obtain ⟨hsteps, hleast⟩ := (h.mem_fresh_iff b).1 hb
      exact distance_eq hsteps hleast
    rw [levels_succ, List.pairwise_append]
    refine ⟨?_, ih h.advance, fun x hx y hy => ?_⟩
    · refine List.pairwise_of_forall_mem_list fun x hx y hy => ?_
      rw [hlevel x hx, hlevel y hy]
    · rw [hlevel x hx]
      exact Nat.le_of_lt (h.advance.lt_distance hy)

end Layer

end Layers

end ContractAtlas.Reach
