import ContractAtlas.Proofs.Reach
import Mathlib.Data.List.Perm.Subperm

/-! The search that takes things from a queue finds what the search by levels finds, in the same
order. While a level is taken from the front of the queue, the next one is put together at its
end. -/
namespace ContractAtlas.Reach

variable {α : Type} [BEq α]

theorem fresh_append (seen as bs : List α) :
    fresh (fun x => x) seen (as ++ bs) =
      fresh (fun x => x) seen as ++
        fresh (fun x => x) ((fresh (fun x => x) seen as).reverse ++ seen) bs := by
  induction as generalizing seen with
  | nil => rfl
  | cons a as ih =>
    rw [List.cons_append, fresh, fresh]
    split
    · exact ih seen
    · rw [ih, List.cons_append, List.reverse_cons, List.append_assoc, List.singleton_append]

/-- Only what was seen matters, not the order in which it was. -/
theorem fresh_congr [LawfulBEq α] {seen seen' : List α} (h : ∀ a, a ∈ seen ↔ a ∈ seen')
    (as : List α) : fresh (fun x => x) seen as = fresh (fun x => x) seen' as := by
  induction as generalizing seen seen' with
  | nil => rfl
  | cons a as ih =>
    have hsame : seen.contains a = seen'.contains a := by
      rw [Bool.eq_iff_iff, List.contains_iff_mem, List.contains_iff_mem]
      exact h a
    have hmore : ∀ b, b ∈ a :: seen ↔ b ∈ a :: seen' := fun b => by
      rw [List.mem_cons, List.mem_cons, h]
    rw [fresh, fresh, hsame, ih h, ih hmore]

theorem levels_congr [LawfulBEq α] {next : α → List α} {seen seen' : List α}
    (h : ∀ a, a ∈ seen ↔ a ∈ seen') (steps : Nat) (frontier : List α) :
    levels next steps seen frontier = levels next steps seen' frontier := by
  induction steps generalizing seen seen' frontier with
  | zero => rfl
  | succ steps ih =>
    rw [levels_succ, levels_succ, fresh_congr h]
    congr 1
    apply ih
    intro a
    rw [List.mem_append, List.mem_append, h]

namespace Queue

variable {next : α → List α}

/-- Visiting things one by one finds the fresh ones. -/
theorem foldl_visit (q : Queue α) (as : List α) :
    as.foldl visit q =
      { visited := (fresh (fun x => x) q.visited as).reverse ++ q.visited
        found := q.found ++ fresh (fun x => x) q.visited as
        pending := q.pending ++ fresh (fun x => x) q.visited as } := by
  induction as generalizing q with
  | nil => simp [fresh]
  | cons a as ih =>
    rw [List.foldl_cons, ih, visit, fresh]
    split <;> simp

/-- Takes a whole level from the queue. What it leads to comes behind the part of the next level
that waits already. -/
private theorem run_append (visited found frontier waiting : List α) (rounds : Nat) :
    run next (frontier.length + rounds) ⟨visited, found, frontier ++ waiting⟩ =
      run next rounds
        ⟨(fresh (fun x => x) visited (frontier.flatMap next)).reverse ++ visited,
          found ++ fresh (fun x => x) visited (frontier.flatMap next),
          waiting ++ fresh (fun x => x) visited (frontier.flatMap next)⟩ := by
  induction frontier generalizing visited found waiting with
  | nil => simp [fresh]
  | cons a frontier ih =>
    rw [List.length_cons, Nat.succ_add_eq_add_succ, Nat.add_succ, run]
    simp only [List.cons_append, foldl_visit, List.append_assoc, ih,
      List.flatMap_cons, fresh_append, List.reverse_append]

theorem run_level {visited frontier level : List α}
    (hl : fresh (fun x => x) visited (frontier.flatMap next) = level) (found : List α)
    (rounds : Nat) :
    run next (frontier.length + rounds) ⟨visited, found, frontier⟩ =
      run next rounds ⟨level.reverse ++ visited, found ++ level, level⟩ := by
  have hrun := @run_append _ _ next visited found frontier [] rounds
  rwa [List.append_nil, List.nil_append, hl] at hrun

theorem run_nil (visited found : List α) (rounds : Nat) :
    run next rounds ⟨visited, found, []⟩ = ⟨visited, found, []⟩ := by
  cases rounds <;> rfl

/-- A level uses up as much of what is left to find as it has members. -/
private theorem left_add_length_le [LawfulBEq α] {all visited level : List α} (hnodup : level.Nodup)
    (hall : level ⊆ all) (hnew : ∀ x ∈ level, x ∉ visited) :
    (all.filter fun x => !(level.reverse ++ visited).contains x).length + level.length ≤
      (all.filter fun x => !visited.contains x).length := by
  have hsplit := @List.length_eq_length_filter_add _ (all.filter fun x => !visited.contains x)
    fun x => level.contains x
  have hlevel : level.length ≤
      ((all.filter fun x => !visited.contains x).filter fun x => level.contains x).length := by
    refine (hnodup.subperm fun x hx => ?_).length_le
    refine List.mem_filter.2 ⟨List.mem_filter.2 ⟨hall hx, ?_⟩, List.contains_iff_mem.2 hx⟩
    simpa using hnew x hx
  have hrest : ((all.filter fun x => !visited.contains x).filter fun x => !level.contains x) =
      all.filter fun x => !(level.reverse ++ visited).contains x := by
    rw [List.filter_filter]
    exact List.filter_congr fun x _ => by simp
  rw [hrest] at hsplit
  omega

/-- With a round for everything that waits and everything left to find, the queue runs empty and all
levels have been found. -/
theorem exists_run_eq [LawfulBEq α] {all : List α} (hall : ∀ x, ∀ y ∈ next x, y ∈ all)
    {steps rounds : Nat} {visited found frontier : List α}
    (hsteps : (all.filter fun x => !visited.contains x).length ≤ steps)
    (hrounds : frontier.length + (all.filter fun x => !visited.contains x).length ≤ rounds) :
    ∃ seen, run next rounds ⟨visited, found, frontier⟩ =
      ⟨seen, found ++ levels next steps visited frontier, []⟩ := by
  induction steps generalizing visited found frontier rounds with
  | zero =>
    have hnone := List.filter_eq_nil_iff.1 (List.length_eq_zero_iff.1 (Nat.le_zero.1 hsteps))
    have hl : fresh (fun x => x) visited (frontier.flatMap next) = [] := by
      apply fresh_eq_nil
      intro y hy
      obtain ⟨x, -, hxy⟩ := List.mem_flatMap.1 hy
      simpa using hnone y (hall x y hxy)
    obtain ⟨rest, rfl⟩ := Nat.exists_eq_add_of_le (Nat.le_trans (Nat.le_add_right _ _) hrounds)
    rw [run_level hl, run_nil]
    exact ⟨_, rfl⟩
  | succ steps ih =>
    obtain ⟨rest, rfl⟩ := Nat.exists_eq_add_of_le (Nat.le_trans (Nat.le_add_right _ _) hrounds)
    generalize hl : fresh (fun x => x) visited (frontier.flatMap next) = level
    have hlevel : ∀ y ∈ level, (∃ x ∈ frontier, y ∈ next x) ∧ y ∉ visited := by
      intro y hy
      rwa [← hl, mem_fresh, List.mem_flatMap] at hy
    have hnodup : level.Nodup := by
      have hkeys := nodup_map_fresh (fun x => x) visited (frontier.flatMap next)
      rwa [hl, List.map_id'] at hkeys
    have hsubset : level ⊆ all := fun y hy => (hlevel y hy).1.elim fun x hx => hall x y hx.2
    have hfewer := left_add_length_le hnodup hsubset fun y hy => (hlevel y hy).2
    rw [run_level hl, levels_succ, hl]
    cases level with
    | nil =>
      rw [run_nil, levels_nil]
      exact ⟨_, rfl⟩
    | cons a level =>
      rw [List.length_cons] at hfewer
      have hsame : ∀ b, b ∈ a :: level ++ visited ↔ b ∈ (a :: level).reverse ++ visited :=
        fun b => by
        rw [List.mem_append, List.mem_append, List.mem_reverse]
      rw [levels_congr hsame, ← List.append_assoc]
      exact ih (by omega) (by rw [List.length_cons]; omega)

end Queue

end ContractAtlas.Reach
