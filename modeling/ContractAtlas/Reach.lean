/-! Breadth-first search, and lists in which things with equal keys count as one. -/
namespace ContractAtlas.Reach

variable {α κ : Type} [BEq κ]

/-- The entries whose key is neither in `seen` nor that of an earlier entry. -/
def fresh (key : α → κ) : List κ → List α → List α
  | _, [] => []
  | seen, a :: as =>
    if seen.contains (key a) then fresh key seen as else a :: fresh key (key a :: seen) as

theorem mem_of_mem_fresh {key : α → κ} {seen : List κ} {as : List α} {a : α}
    (h : a ∈ fresh key seen as) : a ∈ as := by
  induction as generalizing seen with
  | nil => cases h
  | cons b bs ih =>
    rw [fresh] at h
    split at h
    · exact List.mem_cons_of_mem _ (ih h)
    · rcases List.mem_cons.1 h with rfl | h
      · exact List.mem_cons_self
      · exact List.mem_cons_of_mem _ (ih h)

theorem key_not_mem_seen [LawfulBEq κ] {key : α → κ} {seen : List κ} {as : List α} {a : α}
    (h : a ∈ fresh key seen as) : key a ∉ seen := by
  induction as generalizing seen with
  | nil => cases h
  | cons b bs ih =>
    rw [fresh] at h
    split at h
    · exact ih h
    · rename_i hb
      rcases List.mem_cons.1 h with rfl | h
      · simpa using hb
      · exact fun hm => ih h (List.mem_cons_of_mem _ hm)

theorem nodup_map_fresh [LawfulBEq κ] (key : α → κ) (seen : List κ) (as : List α) :
    ((fresh key seen as).map key).Nodup := by
  induction as generalizing seen with
  | nil => exact .nil
  | cons b bs ih =>
    rw [fresh]
    split
    · exact ih seen
    · rw [List.map_cons, List.nodup_cons]
      refine ⟨fun hm => ?_, ih _⟩
      obtain ⟨a, ha, he⟩ := List.mem_map.1 hm
      exact key_not_mem_seen ha (he ▸ List.mem_cons_self)

/-- A breadth-first search under way: what it has visited, what it has found in order, and what
waits for its turn. -/
structure Queue (α : Type) where
  visited : List α
  found : List α := []
  pending : List α

namespace Queue

variable {α : Type} [BEq α]

/-- A search that has only its start. -/
def start (a : α) : Queue α := { visited := [a], pending := [a] }

/-- Finds a thing, which then waits for its turn, unless it was visited before. -/
def visit (q : Queue α) (a : α) : Queue α :=
  if q.visited.contains a then q
  else { visited := a :: q.visited, found := q.found ++ [a], pending := q.pending ++ [a] }

/-- Takes the first thing that waits and visits all that it leads to, time after time until nothing
waits, but `rounds` times at most. -/
def run (next : α → List α) : (rounds : Nat) → Queue α → Queue α
  | 0, q => q
  | rounds + 1, q =>
    match q.pending with
    | [] => q
    | a :: rest => run next rounds ((next a).foldl visit { q with pending := rest })

end Queue

end ContractAtlas.Reach
