import ContractAtlas.Proofs.Flow.Paths
import Mathlib.Data.Finset.Card
import Mathlib.Logic.Relation

/-! Depth-first search in a flow graph. A number is gone through once, on the way on which it is met
first, so how far the search gets beyond it depends on the length of that way. -/
namespace ContractAtlas

namespace FlowGraph

namespace Search
variable {steps : List (Nat × Nat)} {depth current a b : Nat} {s s' s'' : Search}

/-- The numbers to which steps lead from `a`, in order. -/
def successors (steps : List (Nat × Nat)) (a : Nat) : List Nat :=
  (steps.filter (·.1 = a)).map Prod.snd

theorem mem_successors : b ∈ successors steps a ↔ (a, b) ∈ steps := by
  simp only [successors, List.mem_map, List.mem_filter, decide_eq_true_eq]
  constructor
  · rintro ⟨step, ⟨hstep, rfl⟩, rfl⟩
    exact hstep
  · exact fun h => ⟨(a, b), ⟨h, rfl⟩, rfl⟩

@[simp] theorem visited_reach (s : Search) (a : Nat) : (s.reach a).visited = s.visited := by
  rw [reach]
  split <;> rfl

@[simp] theorem mem_reached_reach : b ∈ (s.reach a).reached ↔ b ∈ s.reached ∨ b = a := by
  rw [reach]
  split
  · rename_i h
    refine ⟨.inl, fun hb => hb.elim id ?_⟩
    rintro rfl
    exact List.contains_iff_mem.1 h
  · rw [List.mem_append, List.mem_singleton]

theorem nodup_reach (h : s.reached.Nodup) (a : Nat) : (s.reach a).reached.Nodup := by
  rw [reach]
  split
  · exact h
  · rename_i hnew
    refine List.nodup_append.2 ⟨h, List.nodup_singleton a, fun x hx y hy he => hnew ?_⟩
    rw [List.contains_iff_mem, ← List.mem_singleton.1 hy, ← he]
    exact hx

theorem follow_of_mem (h : current ∈ s.visited) : follow steps depth current s = s := by
  cases depth with
  | zero => rfl
  | succ depth => rw [follow, if_pos (List.contains_iff_mem.2 h)]

/-- A new number is marked, and the search goes on from each of its successors. -/
theorem follow_of_not_mem (h : current ∉ s.visited) :
    follow steps (depth + 1) current s =
      (successors steps current).foldl (fun s b => follow steps depth b (s.reach b))
        { s with visited := current :: s.visited } := by
  rw [follow, if_neg fun hc => h (List.contains_iff_mem.1 hc), successors, List.foldl_map,
    List.foldl_filter]
  simp only [decide_eq_true_eq]

/-- The way on which a search that leads from `s` to `s'` goes through `a`: a simple path that is
new to it. All successors of `a` are reached, and gone through if the way may be longer. -/
structure Way (steps : List (Nat × Nat)) (depth root a : Nat) (s s' : Search) (path : List Nat) :
    Prop
    extends IsSimplePath (fun a b => (a, b) ∈ steps) root a path where
  short : path.length ≤ depth
  fresh : ∀ x ∈ path, x ∉ s.visited
  visited : path ⊆ s'.visited
  reached : ∀ b, (a, b) ∈ steps → b ∈ s'.reached
  onward : path.length < depth → ∀ b, (a, b) ∈ steps → b ∈ s'.visited

/-- The search gets from `s` to `s'` by going into each of the roots, at most `depth` deep. -/
structure Explores (steps : List (Nat × Nat)) (depth : Nat) (roots : List Nat) (s s' : Search) :
    Prop where
  visited : s.visited ⊆ s'.visited
  reached : s.reached ⊆ s'.reached
  entered : 0 < depth → roots ⊆ s'.visited
  ways : ∀ a ∈ s'.visited, a ∉ s.visited → ∃ root ∈ roots, ∃ path, Way steps depth root a s s' path

variable {root : Nat} {roots roots' path : List Nat}

theorem Way.mono (h : Way steps depth root a s' s'' path) {t t' : Search}
    (hbefore : t.visited ⊆ s'.visited) (hvisited : s''.visited ⊆ t'.visited)
    (hreached : s''.reached ⊆ t'.reached) : Way steps depth root a t t' path where
  toIsSimplePath := h.toIsSimplePath
  short := h.short
  fresh := fun x hx hs => h.fresh x hx (hbefore hs)
  visited := fun _ hx => hvisited (h.visited hx)
  reached := fun b hb => hreached (h.reached b hb)
  onward := fun hlt b hb => hvisited (h.onward hlt b hb)

theorem Explores.refl (steps : List (Nat × Nat)) (depth : Nat) (s : Search)
    (hroots : 0 < depth → roots ⊆ s.visited) : Explores steps depth roots s s :=
  ⟨List.Subset.refl _, List.Subset.refl _, hroots, fun _ ha hnew => absurd ha hnew⟩

theorem Explores.trans (h : Explores steps depth roots s s')
    (h' : Explores steps depth roots' s' s'') : Explores steps depth (roots ++ roots') s s'' where
  visited := fun _ hx => h'.visited (h.visited hx)
  reached := fun _ hx => h'.reached (h.reached hx)
  entered := fun hpos => List.append_subset.2
    ⟨fun _ hx => h'.visited (h.entered hpos hx), h'.entered hpos⟩
  ways := by
    intro a ha hnew
    by_cases hmid : a ∈ s'.visited
    · obtain ⟨root, hroot, path, hway⟩ := h.ways a hmid hnew
      exact ⟨root, List.mem_append_left _ hroot, path,
        hway.mono (List.Subset.refl _) h'.visited h'.reached⟩
    · obtain ⟨root, hroot, path, hway⟩ := h'.ways a ha hmid
      exact ⟨root, List.mem_append_right _ hroot, path,
        hway.mono h.visited (List.Subset.refl _) (List.Subset.refl _)⟩

/-- To note a number as reached does not change where the search has been. -/
theorem Explores.of_reach (h : Explores steps depth roots (s.reach a) s') :
    Explores steps depth roots s s' where
  visited := visited_reach s a ▸ h.visited
  reached := fun _ hx => h.reached (mem_reached_reach.2 (.inl hx))
  entered := h.entered
  ways := by
    intro b hb hnew
    obtain ⟨root, hroot, path, hway⟩ := h.ways b hb ((visited_reach s a).symm ▸ hnew)
    have hsame : s.visited ⊆ (s.reach a).visited := (visited_reach s a).symm ▸ List.Subset.refl _
    exact ⟨root, hroot, path, hway.mono hsame (List.Subset.refl _) (List.Subset.refl _)⟩

theorem explores_foldl (hfollow : ∀ b s, Explores steps depth [b] s (follow steps depth b s))
    (bs : List Nat) (s : Search) :
    Explores steps depth bs s (bs.foldl (fun s b => follow steps depth b (s.reach b)) s) ∧
      bs ⊆ (bs.foldl (fun s b => follow steps depth b (s.reach b)) s).reached := by
  induction bs generalizing s with
  | nil => exact ⟨.refl steps depth s fun _ => List.nil_subset _, List.nil_subset _⟩
  | cons b bs ih =>
    have hfirst := hfollow b (s.reach b)
    obtain ⟨hrest, hreached⟩ := ih (follow steps depth b (s.reach b))
    rw [List.foldl_cons]
    refine ⟨hfirst.of_reach.trans hrest, List.cons_subset.2 ⟨?_, hreached⟩⟩
    exact hrest.reached (hfirst.reached (mem_reached_reach.2 (.inr rfl)))

/-- What the search does from one number on. The induction is on the depth; behind the number itself
the ways are those of its successors with one number more. -/
theorem explores_follow (depth current : Nat) (s : Search) :
    Explores steps depth [current] s (follow steps depth current s) := by
  induction depth generalizing current s with
  | zero => exact .refl steps 0 s fun h => absurd h (Nat.lt_irrefl 0)
  | succ depth ih =>
    by_cases hmet : current ∈ s.visited
    · rw [follow_of_mem hmet]
      exact .refl steps _ s fun _ => List.cons_subset.2 ⟨hmet, List.nil_subset _⟩
    · rw [follow_of_not_mem hmet]
      obtain ⟨h, hreached⟩ := explores_foldl ih (successors steps current)
        { s with visited := current :: s.visited }
      obtain ⟨hcurrent, hvisited⟩ := List.cons_subset.1 h.visited
      refine ⟨hvisited, h.reached, fun _ => List.cons_subset.2 ⟨hcurrent, List.nil_subset _⟩, ?_⟩
      intro a ha hnew
      refine ⟨current, List.mem_singleton_self current, ?_⟩
      by_cases hself : a = current
      · subst hself
        exact ⟨[a],
          { toIsSimplePath := isSimplePath_singleton _ a
            short := Nat.le_add_left 1 depth
            fresh := List.forall_mem_singleton.2 hmet
            visited := List.cons_subset.2 ⟨hcurrent, List.nil_subset _⟩
            reached := fun b hb => hreached (mem_successors.2 hb)
            onward :=
              fun hlt b hb => h.entered (Nat.lt_of_succ_lt_succ hlt) (mem_successors.2 hb) }⟩
      · obtain ⟨b, hb, path, hway⟩ :=
          h.ways a ha fun hm => hnew ((List.mem_cons.1 hm).resolve_left hself)
        have hoff : current ∉ path := fun hm => hway.fresh current hm List.mem_cons_self
        exact ⟨current :: path,
          { toIsSimplePath := hway.toIsSimplePath.cons (mem_successors.1 hb) hoff
            short := Nat.succ_le_succ hway.short
            fresh := List.forall_mem_cons.2
              ⟨hmet, fun x hx hs => hway.fresh x hx (List.mem_cons_of_mem _ hs)⟩
            visited := List.cons_subset.2 ⟨hcurrent, hway.visited⟩
            reached := hway.reached
            onward := fun hlt => hway.onward (Nat.lt_of_succ_lt_succ hlt) }⟩

/-- What has been reached are distinct numbers, each a successor of one gone through. -/
structure Grounded (steps : List (Nat × Nat)) (s : Search) : Prop where
  distinct : s.reached.Nodup
  led : ∀ b ∈ s.reached, ∃ a ∈ s.visited, (a, b) ∈ steps

theorem grounded_empty (steps : List (Nat × Nat)) : Grounded steps {} := ⟨.nil, nofun⟩

theorem Grounded.reach (h : Grounded steps s) (ha : a ∈ s.visited) (hab : (a, b) ∈ steps) :
    Grounded steps (s.reach b) := by
  refine ⟨nodup_reach h.distinct b, fun x hx => ?_⟩
  rw [visited_reach]
  rcases mem_reached_reach.1 hx with hx | rfl
  · exact h.led x hx
  · exact ⟨a, ha, hab⟩

theorem Grounded.foldl (hfollow : ∀ b s, Grounded steps s → Grounded steps (follow steps depth b s))
    {bs : List Nat} (hbs : ∀ b ∈ bs, (a, b) ∈ steps) (h : Grounded steps s) (ha : a ∈ s.visited) :
    Grounded steps (bs.foldl (fun s b => follow steps depth b (s.reach b)) s) := by
  induction bs generalizing s with
  | nil => exact h
  | cons b bs ih =>
    obtain ⟨hb, hbs⟩ := List.forall_mem_cons.1 hbs
    refine ih hbs (hfollow b _ (h.reach ha hb)) ?_
    apply (explores_follow depth b (s.reach b)).visited
    rw [visited_reach]
    exact ha

theorem Grounded.follow (h : Grounded steps s) (depth current : Nat) :
    Grounded steps (follow steps depth current s) := by
  induction depth generalizing current s with
  | zero => exact h
  | succ depth ih =>
    by_cases hmet : current ∈ s.visited
    · rw [follow_of_mem hmet]
      exact h
    · rw [follow_of_not_mem hmet]
      refine Grounded.foldl (fun b s hs => ih hs b) (fun b hb => mem_successors.1 hb) ?_
        List.mem_cons_self
      refine ⟨h.distinct, fun b hb => ?_⟩
      obtain ⟨a, ha, hab⟩ := h.led b hb
      exact ⟨a, List.mem_cons_of_mem _ ha, hab⟩

end Search

/-- `b` lies at the end of a path of at least one and at most `depth` steps from `a`. -/
def Within (r : Nat → Nat → Prop) (depth a b : Nat) : Prop :=
  ∃ path, IsPath r a b path ∧ 1 ≤ stepCount path ∧ stepCount path ≤ depth

/-- A detour past a path: a simple path of `depth` numbers to a number of it from which two steps or
more are left, which does not come to the number after that one. -/
def HasDetour (r : Nat → Nat → Prop) (start depth : Nat) (path : List Nat) : Prop :=
  ∃ front x y back detour, path = front ++ x :: y :: back ∧ back ≠ [] ∧
    IsSimplePath r start x detour ∧ detour.length = depth ∧ y ∉ detour

theorem HasDetour.cons {r : Nat → Nat → Prop} {start depth : Nat} {path : List Nat}
    (h : HasDetour r start depth path) (a : Nat) : HasDetour r start depth (a :: path) := by
  obtain ⟨front, x, y, back, detour, rfl, h⟩ := h
  exact ⟨a :: front, x, y, back, detour, rfl, h⟩

section Whole
variable {steps : List (Nat × Nat)} {depth start a b : Nat} {path : List Nat}

theorem Search.exists_way (ha : a ∈ (follow steps depth start {}).visited) :
    ∃ path, Way steps depth start a {} (follow steps depth start {}) path := by
  obtain ⟨root, hroot, path, hway⟩ :=
    (explores_follow depth start {}).ways a ha List.not_mem_nil
  cases List.mem_singleton.1 hroot
  exact ⟨path, hway⟩

/-- The search finds nothing that is too far away. -/
theorem Search.within_of_mem_reached (hb : b ∈ (follow steps depth start {}).reached) :
    Within (fun a b => (a, b) ∈ steps) depth start b := by
  obtain ⟨a, ha, hab⟩ := ((grounded_empty steps).follow depth start).led b hb
  obtain ⟨path, hway⟩ := exists_way ha
  have hpos := hway.length_pos
  have hshort := hway.short
  refine ⟨path ++ [b], hway.toIsPath.concat hab, ?_, ?_⟩
  · rw [stepCount, List.length_append, List.length_singleton]
    omega
  · rw [stepCount, List.length_append, List.length_singleton]
    omega

/-- From a number that the search has gone through, it has reached the end of any path unless it was
led past the path by a detour. -/
theorem Search.reached_or_detour (ha : a ∈ (follow steps depth start {}).visited)
    (hpath : IsPath (fun a b => (a, b) ∈ steps) a b path) (hlong : 1 ≤ stepCount path) :
    b ∈ (follow steps depth start {}).reached ∨
      HasDetour (fun a b => (a, b) ∈ steps) start depth path := by
  refine hpath.stepInduction (P := fun a path => a ∈ (follow steps depth start {}).visited →
    b ∈ (follow steps depth start {}).reached ∨
      HasDetour (fun a b => (a, b) ∈ steps) start depth path) ?_ ?_ hlong ha
  · intro a hstep ha
    obtain ⟨way, hway⟩ := exists_way ha
    exact .inl (hway.reached b hstep)
  · intro a c rest hstep hrest ih ha
    by_cases hc : c ∈ (follow steps depth start {}).visited
    · exact (ih hc).imp_right fun h => h.cons a
    · -- the search came to `a` too late to go on to `c`
      obtain ⟨way, hway⟩ := exists_way ha
      have hfull : way.length = depth := Nat.le_antisymm hway.short
        (Nat.le_of_not_lt fun hlt => hc (hway.onward hlt c hstep))
      exact .inr ⟨[], a, c, rest, way, rfl, hrest, hway.toIsSimplePath, hfull,
        fun hm => hc (hway.visited hm)⟩

theorem Search.start_mem_visited (hdepth : 0 < depth) :
    start ∈ (follow steps depth start {}).visited :=
  (explores_follow depth start {}).entered hdepth List.mem_cons_self

/-- A search as deep as there are numbers finds all that can be reached: a detour would come to all
of them. -/
theorem Search.mem_reached_of_transGen {ends : Finset Nat}
    (hends : ∀ a b, (a, b) ∈ steps → a ∈ ends ∧ b ∈ ends) (hdepth : ends.card ≤ depth)
    (h : Relation.TransGen (fun a b => (a, b) ∈ steps) start b) :
    b ∈ (follow steps depth start {}).reached := by
  have hstart : start ∈ ends := by
    obtain ⟨c, hstep, -⟩ := Relation.TransGen.head'_iff.1 h
    exact (hends start c hstep).1
  have hpos : 0 < depth := Nat.lt_of_lt_of_le (Finset.card_pos.2 ⟨start, hstart⟩) hdepth
  obtain ⟨path, hpath, hlong⟩ := exists_isPath_of_transGen h
  refine (reached_or_detour (start_mem_visited hpos) hpath hlong).resolve_right ?_
  rintro ⟨front, x, y, back, detour, rfl, -, hdetour, hlength, hoff⟩
  have hin : ∀ z ∈ detour, z ∈ ends :=
    hdetour.forall_mem hstart fun u v huv => (hends u v huv).2
  have hy : y ∈ ends :=
    hpath.forall_mem hstart (fun u v huv => (hends u v huv).2) y (by simp)
  -- the detour and the number that it avoids are more numbers than there are
  have hall : (y :: detour).toFinset ⊆ ends := by
    intro z hz
    rcases List.mem_cons.1 (List.mem_toFinset.1 hz) with rfl | hz
    · exact hy
    · exact hin z hz
  have hcard := Finset.card_le_card hall
  rw [List.toFinset_card_of_nodup (List.nodup_cons.2 ⟨hoff, hdetour.distinct⟩), List.length_cons,
    hlength] at hcard
  omega

end Whole

/-- The numbers at the ends of the edges. -/
def ends (g : FlowGraph) : Finset Nat :=
  (g.edges.map FlowEdge.source ++ g.edges.map FlowEdge.target).toFinset

theorem Joined.mem_ends {g : FlowGraph} {a b : Nat} (h : g.Joined a b) :
    a ∈ g.ends ∧ b ∈ g.ends := by
  obtain ⟨e, he, rfl, rfl⟩ := h
  rw [ends, List.mem_toFinset, List.mem_toFinset]
  exact ⟨List.mem_append_left _ (List.mem_map_of_mem he),
    List.mem_append_right _ (List.mem_map_of_mem he)⟩

section Directions
variable {g : FlowGraph} {start depth a b : Nat}

theorem within_of_mem_forward (h : b ∈ g.forward start depth) : Within g.Joined depth start b := by
  rw [← mem_steps_eq]
  exact Search.within_of_mem_reached h

theorem within_of_mem_backward (h : b ∈ g.backward start depth) :
    Within (fun x y => g.Joined y x) depth start b := by
  rw [← mem_backSteps_eq]
  exact Search.within_of_mem_reached h

theorem Within.transGen {r : Nat → Nat → Prop} (h : Within r depth a b) :
    Relation.TransGen r a b := by
  obtain ⟨path, hpath, hlong, -⟩ := h
  exact hpath.transGen hlong

theorem mem_forward_iff (hdepth : g.ends.card ≤ depth) :
    b ∈ g.forward a depth ↔ Relation.TransGen g.Joined a b := by
  refine ⟨fun h => (within_of_mem_forward h).transGen, fun h => ?_⟩
  rw [← mem_steps_eq] at h
  exact Search.mem_reached_of_transGen (fun x y hxy => (mem_steps.1 hxy).mem_ends) hdepth h

theorem mem_backward_iff (hdepth : g.ends.card ≤ depth) :
    b ∈ g.backward a depth ↔ Relation.TransGen g.Joined b a := by
  have hswap : Relation.TransGen (fun x y => g.Joined y x) a b ↔ Relation.TransGen g.Joined b a :=
    Relation.transGen_swap
  rw [← hswap]
  refine ⟨fun h => (within_of_mem_backward h).transGen, fun h => ?_⟩
  rw [← mem_backSteps_eq] at h
  exact Search.mem_reached_of_transGen (fun x y hxy => (mem_backSteps.1 hxy).mem_ends.symm) hdepth h

end Directions

end FlowGraph

namespace Sample

/-- Two ways from 0 to 2, of which the longer one is tried first, and a way on from there. -/
def bypass : List (Nat × Nat) := [(0, 1), (1, 2), (2, 3), (3, 4), (0, 2)]

theorem isPath_bypass : FlowGraph.IsPath (fun a b => (a, b) ∈ bypass) 0 4 [0, 2, 3, 4] :=
  ⟨rfl, rfl, by decide⟩

end Sample

namespace FlowGraph

/-- Along the edges and against them, the search finds the end of every path of at most `depth`
steps unless there is a detour past the path: a simple path of `depth` numbers that comes to a
number of it from which two steps or more are left, and not to the next one. -/
theorem found_or_detour (g : FlowGraph) (start b depth : Nat) (path : List Nat)
    (hlong : 1 ≤ stepCount path) (hshort : stepCount path ≤ depth) :
    (IsPath g.Joined start b path →
      b ∈ g.forward start depth ∨ HasDetour g.Joined start depth path) ∧
    (IsPath (fun x y => g.Joined y x) start b path →
      b ∈ g.backward start depth ∨ HasDetour (fun x y => g.Joined y x) start depth path) := by
  have hpos : 0 < depth := Nat.lt_of_lt_of_le hlong hshort
  constructor
  · intro hpath
    rw [← mem_steps_eq] at hpath ⊢
    exact Search.reached_or_detour (Search.start_mem_visited hpos) hpath hlong
  · intro hpath
    rw [← mem_backSteps_eq] at hpath ⊢
    exact Search.reached_or_detour (Search.start_mem_visited hpos) hpath hlong

/-- In the sample the way by 1 is a detour past the path by 2. -/
theorem found_or_detour_sample :
    1 ≤ stepCount [0, 2, 3, 4] ∧ stepCount [0, 2, 3, 4] ≤ 3 ∧
      IsPath (Sample.graphOf Sample.bypass).Joined 0 4 [0, 2, 3, 4] ∧
      HasDetour (Sample.graphOf Sample.bypass).Joined 0 3 [0, 2, 3, 4] := by
  have hpath : IsPath (Sample.graphOf Sample.bypass).Joined 0 4 [0, 2, 3, 4] :=
    mem_steps_eq (Sample.graphOf Sample.bypass) ▸ Sample.isPath_bypass
  refine ⟨by decide, by decide, hpath, ?_⟩
  exact ((found_or_detour _ 0 4 3 [0, 2, 3, 4] (by decide) (by decide)).1 hpath).resolve_left
    (by decide)

/-- A number three steps away is not found at depth three, along the edges or against them: the
search comes to 2 by the longer way and is too deep there to go on from 3, and later does not go
through 2 again. -/
theorem near_number_missed :
    (Within (Sample.graphOf Sample.bypass).Joined 3 0 4 ∧
      4 ∉ (Sample.graphOf Sample.bypass).forward 0 3) ∧
    (Within (fun x y => (Sample.graphOf (Sample.bypass.map Prod.swap)).Joined y x) 3 0 4 ∧
      4 ∉ (Sample.graphOf (Sample.bypass.map Prod.swap)).backward 0 3) := by
  refine ⟨⟨⟨[0, 2, 3, 4], ?_, by decide, by decide⟩, by decide⟩,
    ⟨⟨[0, 2, 3, 4], ?_, by decide, by decide⟩, by decide⟩⟩
  · exact mem_steps_eq (Sample.graphOf Sample.bypass) ▸ Sample.isPath_bypass
  · exact mem_backSteps_eq (Sample.graphOf (Sample.bypass.map Prod.swap)) ▸ Sample.isPath_bypass

/-- Along the edges and against them, the search finds distinct numbers, none of them too far away.
It finds all that can be reached if it may go as deep as there are numbers, and then a number finds
another one exactly if it is found from there in the other direction. -/
theorem flow_exact (g : FlowGraph) (start depth : Nat) :
    ((g.forward start depth).Nodup ∧ ∀ b ∈ g.forward start depth, Within g.Joined depth start b) ∧
    ((g.backward start depth).Nodup ∧
      ∀ b ∈ g.backward start depth, Within (fun x y => g.Joined y x) depth start b) ∧
    ((insert start g.ends).card ≤ depth → ∀ b,
      (b ∈ g.forward start depth ↔ Relation.TransGen g.Joined start b) ∧
      (b ∈ g.backward start depth ↔ Relation.TransGen g.Joined b start) ∧
      (b ∈ g.forward start depth ↔ start ∈ g.backward b depth) ∧
      (b ∈ g.backward start depth ↔ start ∈ g.forward b depth)) := by
  refine ⟨⟨?_, fun b => within_of_mem_forward⟩, ⟨?_, fun b => within_of_mem_backward⟩, ?_⟩
  · exact ((Search.grounded_empty g.steps).follow depth start).distinct
  · exact ((Search.grounded_empty g.backSteps).follow depth start).distinct
  · intro hdepth b
    have hends : g.ends.card ≤ depth :=
      Nat.le_trans (Finset.card_le_card (Finset.subset_insert start g.ends)) hdepth
    rw [mem_forward_iff hends, mem_backward_iff hends, mem_backward_iff hends,
      mem_forward_iff hends]
    exact ⟨Iff.rfl, Iff.rfl, Iff.rfl, Iff.rfl⟩

theorem flow_exact_sample :
    (insert 0 Sample.looped.ends).card ≤ 4 ∧ Relation.TransGen Sample.looped.Joined 0 0 ∧
      0 ∈ Sample.looped.backward 3 4 ∧ ¬ Relation.TransGen Sample.looped.Joined 3 0 := by
  have hdepth : (insert 0 Sample.looped.ends).card ≤ 4 := by decide
  obtain ⟨-, -, hexact⟩ := flow_exact Sample.looped 0 4
  obtain ⟨hself, -⟩ := hexact hdepth 0
  obtain ⟨-, hback, hforward, -⟩ := hexact hdepth 3
  exact ⟨hdepth, hself.1 (by decide), hforward.1 (by decide),
    fun h => absurd (hback.2 h) (by decide)⟩

end FlowGraph

end ContractAtlas
