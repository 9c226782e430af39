import ContractAtlas.Reach
import Mathlib.Data.List.Basic
import Mathlib.Logic.Relation

/-! Search by levels: it finds exactly what can be reached in one step or more, as long as it is
given as many steps as there are things to find, and it does not depend on how things are named. -/
namespace ContractAtlas.Reach

section Fresh
variable {α κ : Type} [BEq κ] {key : α → κ}

/-- Things are told apart by their keys alone. -/
theorem fresh_map {β : Type} (f : β → α) (seen : List κ) (bs : List β) :
    fresh key seen (bs.map f) = (fresh (fun b => key (f b)) seen bs).map f := by
  induction bs generalizing seen with
  | nil => rfl
  | cons b bs ih =>
    rw [List.map_cons, fresh, fresh, ih, ih]
    split <;> rfl

theorem map_key_fresh (seen : List κ) (as : List α) :
    (fresh key seen as).map key = fresh (fun k => k) seen (as.map key) :=
  (@fresh_map κ κ _ (fun k => k) α key seen as).symm

theorem fresh_eq_nil [LawfulBEq κ] {seen : List κ} {as : List α} (h : ∀ a ∈ as, key a ∈ seen) :
    fresh key seen as = [] := by
  refine List.eq_nil_iff_forall_not_mem.2 fun a ha => ?_
  exact key_not_mem_seen ha (h a (mem_of_mem_fresh ha))

end Fresh

section Levels
variable {α : Type} [BEq α] {next : α → List α}

/-- What is reached from `frontier` in at most `steps` steps and was not seen before, nearest
first. -/
def levels (next : α → List α) : (steps : Nat) → (seen frontier : List α) → List α
  | 0, _, _ => []
  | steps + 1, seen, frontier =>
    match fresh (fun x => x) seen (frontier.flatMap next) with
    | [] => []
    | level => level ++ levels next steps (level ++ seen) level

@[simp] theorem levels_nil (steps : Nat) (seen : List α) : levels next steps seen [] = [] := by
  cases steps <;> rfl

/-- One level and the search from it, also when the level is empty. -/
theorem levels_succ (steps : Nat) (seen frontier : List α) :
    levels next (steps + 1) seen frontier =
      fresh (fun x => x) seen (frontier.flatMap next) ++
        levels next steps (fresh (fun x => x) seen (frontier.flatMap next) ++ seen)
          (fresh (fun x => x) seen (frontier.flatMap next)) := by
  rw [levels]
  split
  · rename_i he
    rw [he, levels_nil, List.append_nil]
  · rfl

/-- Whatever the search finds lies at the end of a path from the frontier. -/
theorem exists_path_of_mem_levels {steps : Nat} {seen frontier : List α} {a : α}
    (h : a ∈ levels next steps seen frontier) :
    ∃ c ∈ frontier, Relation.TransGen (fun x y => y ∈ next x) c a := by
  induction steps generalizing seen frontier with
  | zero => cases h
  | succ steps ih =>
    rw [levels_succ] at h
    rcases List.mem_append.1 h with h | h
    · obtain ⟨c, hc, ha⟩ := List.mem_flatMap.1 (mem_of_mem_fresh h)
      exact ⟨c, hc, .single ha⟩
    · obtain ⟨b, hb, hp⟩ := ih h
      obtain ⟨c, hc, hcb⟩ := List.mem_flatMap.1 (mem_of_mem_fresh hb)
      exact ⟨c, hc, .head hcb hp⟩

theorem not_mem_of_mem_levels [LawfulBEq α] {steps : Nat} {seen frontier : List α} {a : α}
    (h : a ∈ levels next steps seen frontier) : a ∉ seen := by
  induction steps generalizing seen frontier with
  | zero => cases h
  | succ steps ih =>
    rw [levels_succ] at h
    rcases List.mem_append.1 h with h | h
    · exact key_not_mem_seen h
    · exact fun hm => ih h (List.mem_append_right _ hm)

/-- Nothing is found twice. -/
theorem nodup_levels [LawfulBEq α] (steps : Nat) (seen frontier : List α) :
    (levels next steps seen frontier).Nodup := by
  induction steps generalizing seen frontier with
  | zero => exact .nil
  | succ steps ih =>
    have hlevel := nodup_map_fresh (fun x => x) seen (frontier.flatMap next)
    rw [List.map_id'] at hlevel
    rw [levels_succ, List.nodup_append]
    refine ⟨hlevel, ih _ _, fun a ha b hb he => ?_⟩
    exact not_mem_of_mem_levels hb (List.mem_append_left _ (he ▸ ha))

end Levels

section Exact
variable {α : Type} [BEq α] [LawfulBEq α] {next : α → List α}

@[simp] theorem mem_fresh {seen as : List α} {a : α} :
    a ∈ fresh (fun x => x) seen as ↔ a ∈ as ∧ a ∉ seen := by
  refine ⟨fun h => ⟨mem_of_mem_fresh h, key_not_mem_seen h⟩, ?_⟩
  intro ⟨ha, hs⟩
  induction as generalizing seen with
  | nil => cases ha
  | cons b bs ih =>
    rw [fresh]
    split
    · rename_i hb
      rcases List.mem_cons.1 ha with rfl | ha
      · exact absurd (List.contains_iff_mem.1 hb) hs
      · exact ih ha hs
    · by_cases hab : a = b
      · exact hab ▸ List.mem_cons_self
      · refine List.mem_cons_of_mem _ (ih ((List.mem_cons.1 ha).resolve_left hab) ?_)
        exact fun hm => (List.mem_cons.1 hm).elim hab hs

private theorem fewer_left {all seen level : List α} {z : α} (hz : z ∈ all) (hs : z ∉ seen)
    (hl : z ∈ level) :
    (all.filter fun x => !(level ++ seen).contains x).length <
      (all.filter fun x => !seen.contains x).length := by
  have hsplit : (all.filter fun x => !(level ++ seen).contains x) =
      (all.filter fun x => !seen.contains x).filter fun x => !level.contains x := by
    rw [List.filter_filter]
    exact List.filter_congr fun x _ => by simp
  rw [hsplit, List.length_filter_lt_length_iff_exists]
  exact ⟨z, List.mem_filter.2 ⟨hz, by simpa using hs⟩, by simpa using hl⟩

/-- The search stops only when nothing new can be reached. The invariant is that what was seen
before the frontier has all its successors among the seen; each level uses up a part of what is
left of `all`, which holds every successor. -/
theorem levels_closed {all : List α} (hall : ∀ x, ∀ y ∈ next x, y ∈ all) {steps : Nat}
    {seen frontier : List α} (hseen : ∀ x ∈ seen, x ∉ frontier → ∀ y ∈ next x, y ∈ seen)
    (hleft : (all.filter fun x => !seen.contains x).length ≤ steps) {x y : α}
    (hx : x ∈ seen ∨ x ∈ levels next steps seen frontier) (hy : y ∈ next x) :
    y ∈ seen ∨ y ∈ levels next steps seen frontier := by
  induction steps generalizing seen frontier with
  | zero =>
    have hnone := List.filter_eq_nil_iff.1 (List.length_eq_zero_iff.1 (Nat.le_zero.1 hleft))
    exact .inl (by simpa using hnone y (hall x y hy))
  | succ steps ih =>
    rw [levels_succ, List.mem_append] at hx ⊢
    generalize hl : fresh (fun x => x) seen (frontier.flatMap next) = level at hx ⊢
    have hlevel : ∀ z, z ∈ level ↔ (∃ w ∈ frontier, z ∈ next w) ∧ z ∉ seen := fun z => by
      rw [← hl, mem_fresh, List.mem_flatMap]
    have hstep : ∀ z ∈ seen, ∀ w ∈ next z, w ∈ level ++ seen := by
      intro z hz w hw
      by_cases hws : w ∈ seen
      · exact List.mem_append_right _ hws
      · by_cases hzf : z ∈ frontier
        · exact List.mem_append_left _ ((hlevel w).2 ⟨⟨z, hzf, hw⟩, hws⟩)
        · exact absurd (hseen z hz hzf w hw) hws
    by_cases hnil : level = []
    · subst hnil
      rw [levels_nil] at hx ⊢
      have hxs : x ∈ seen := by simpa using hx
      exact .inl (by simpa using hstep x hxs y hy)
    · have hfewer : (all.filter fun z => !(level ++ seen).contains z).length ≤ steps := by
        obtain ⟨z, hz⟩ := List.exists_mem_of_ne_nil _ hnil
        obtain ⟨⟨w, -, hzw⟩, hzs⟩ := (hlevel z).1 hz
        have := fewer_left (hall w z hzw) hzs hz
        omega
      have hinv : ∀ z ∈ level ++ seen, z ∉ level → ∀ w ∈ next z, w ∈ level ++ seen := by
        intro z hz hzl
        exact hstep z ((List.mem_append.1 hz).resolve_left hzl)
      have hgo := ih hinv hfewer (by
        rcases hx with hx | hx | hx
        · exact .inl (List.mem_append_right _ hx)
        · exact .inl (List.mem_append_left _ hx)
        · exact .inr hx)
      rcases hgo with hgo | hgo
      · rcases List.mem_append.1 hgo with hgo | hgo
        · exact .inr (.inl hgo)
        · exact .inl hgo
      · exact .inr (.inr hgo)

/-- From one start, the search finds what lies at the end of a path and is not the start itself. -/
theorem mem_levels_iff (all : List α) (hall : ∀ x, ∀ y ∈ next x, y ∈ all) {steps : Nat}
    (hsteps : all.length ≤ steps) {a b : α} :
    b ∈ levels next steps [a] [a] ↔
      b ≠ a ∧ Relation.TransGen (fun x y => y ∈ next x) a b := by
  have hclosed : ∀ x y, x ∈ [a] ∨ x ∈ levels next steps [a] [a] → y ∈ next x →
      y ∈ [a] ∨ y ∈ levels next steps [a] [a] := fun x y hx hy =>
    levels_closed hall (fun z hz hn => absurd hz hn)
      (Nat.le_trans (List.length_filter_le _ _) hsteps) hx hy
  constructor
  · intro h
    obtain ⟨c, hc, hp⟩ := exists_path_of_mem_levels h
    cases List.mem_singleton.1 hc
    exact ⟨fun he => not_mem_of_mem_levels h (List.mem_singleton.2 he), hp⟩
  · intro ⟨hne, hp⟩
    refine Or.resolve_left ?_ fun hm => hne (List.mem_singleton.1 hm)
    induction hp with
    | single h => exact hclosed a _ (.inl List.mem_cons_self) h
    | @tail c d _ h ih =>
      by_cases hca : c = a
      · exact hclosed a d (.inl List.mem_cons_self) (hca ▸ h)
      · exact hclosed c d (ih hca) h

end Exact

section Renaming
variable {α β : Type} [BEq α] [LawfulBEq α] [BEq β] [LawfulBEq β] {f : α → β} {P : α → Prop}

private theorem map_fresh (hinj : ∀ a b, P a → P b → f a = f b → a = b) {seen as : List α}
    (hseen : ∀ a ∈ seen, P a) (has : ∀ a ∈ as, P a) :
    (fresh (fun x => x) seen as).map f = fresh (fun x => x) (seen.map f) (as.map f) := by
  induction as generalizing seen with
  | nil => rfl
  | cons b bs ih =>
    have hb := has b List.mem_cons_self
    have hbs : ∀ a ∈ bs, P a := fun a ha => has a (List.mem_cons_of_mem _ ha)
    have hsame : (seen.map f).contains (f b) = seen.contains b := by
      rw [Bool.eq_iff_iff, List.contains_iff_mem, List.contains_iff_mem, List.mem_map]
      constructor
      · rintro ⟨a, ha, he⟩
        exact hinj a b (hseen a ha) hb he ▸ ha
      · exact fun h => ⟨b, h, rfl⟩
    rw [List.map_cons, fresh, fresh, hsame]
    split
    · exact ih hseen hbs
    · rw [List.map_cons, ih (fun a ha => ?_) hbs, List.map_cons]
      exact (List.mem_cons.1 ha).elim (fun he => he ▸ hb) (hseen a)

/-- A renaming that keeps apart what the search meets carries the search over, order included. -/
theorem map_levels {next : α → List α} {next' : β → List β}
    (hnext : ∀ a, P a → next' (f a) = (next a).map f) (hstay : ∀ a, P a → ∀ b ∈ next a, P b)
    (hinj : ∀ a b, P a → P b → f a = f b → a = b) {steps : Nat} {seen frontier : List α}
    (hseen : ∀ a ∈ seen, P a) (hfrontier : ∀ a ∈ frontier, P a) :
    (levels next steps seen frontier).map f =
      levels next' steps (seen.map f) (frontier.map f) := by
  induction steps generalizing seen frontier with
  | zero => rfl
  | succ steps ih =>
    have hflat : (frontier.map f).flatMap next' = (frontier.flatMap next).map f := by
      rw [List.flatMap_map, List.map_flatMap]
      exact List.flatMap_congr fun a ha => hnext a (hfrontier a ha)
    have hmet : ∀ a ∈ frontier.flatMap next, P a := by
      intro a ha
      obtain ⟨c, hc, hac⟩ := List.mem_flatMap.1 ha
      exact hstay c (hfrontier c hc) a hac
    have hlevel : ∀ a ∈ fresh (fun x => x) seen (frontier.flatMap next), P a :=
      fun a ha => hmet a (mem_of_mem_fresh ha)
    rw [levels_succ, levels_succ, hflat, ← map_fresh hinj hseen hmet, List.map_append,
      ih (fun a ha => ?_) hlevel, List.map_append]
    exact (List.mem_append.1 ha).elim (hlevel a) (hseen a)

end Renaming

end ContractAtlas.Reach
