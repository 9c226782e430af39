import ContractAtlas.Proofs.Program.Walk
import Mathlib.Data.List.Flatten
import Mathlib.Data.List.Forall2

/-! Paths to the nodes of a tree. A tree may hold equal nodes at several places, so places are told
apart by the paths that lead to them; a walk comes to them in the dictionary order of the paths. -/
namespace ContractAtlas.Node

variable {n m : Node} {path : List Nat}

/-- The node at the end of a path, which says at each step which child to go to. -/
def nodeAt? (n : Node) : List Nat → Option Node
  | [] => some n
  | i :: path => n.children[i]?.bind fun c => c.nodeAt? path

theorem nodeAt?_cons_eq_some {i : Nat} :
    n.nodeAt? (i :: path) = some m ↔ ∃ c, n.children[i]? = some c ∧ c.nodeAt? path = some m := by
  rw [nodeAt?, Option.bind_eq_some_iff]

theorem nodeAt?_concat (n : Node) (front : List Nat) (i : Nat) :
    n.nodeAt? (front ++ [i]) = (n.nodeAt? front).bind fun parent => parent.children[i]? := by
  induction front generalizing n with
  | nil => exact Option.bind_fun_some _
  | cons j rest ih =>
    rw [List.cons_append, nodeAt?, nodeAt?]
    cases n.children[j]? with
    | none => rfl
    | some c => exact ih c

/-! ### Paths through siblings -/

/-- The paths through siblings, of which the first is child number `i`, from the paths inside each
of them. -/
def through (i : Nat) : List (List (List Nat)) → List (List Nat)
  | [] => []
  | inside :: later => inside.map (i :: ·) ++ through (i + 1) later

theorem mem_through {start : Nat} {siblings : List (List (List Nat))} :
    path ∈ through start siblings ↔
      ∃ i inside rest, siblings[i]? = some inside ∧ path = (start + i) :: rest ∧ rest ∈ inside := by
  induction siblings generalizing start with
  | nil => simp [through]
  | cons first later ih =>
    rw [through, List.mem_append, List.mem_map, ih]
    constructor
    · rintro (⟨rest, hrest, rfl⟩ | ⟨i, inside, rest, hinside, rfl, hrest⟩)
      · exact ⟨0, first, rest, rfl, rfl, hrest⟩
      · exact ⟨i + 1, inside, rest, hinside, by rw [Nat.add_right_comm, Nat.add_assoc], hrest⟩
    · rintro ⟨i, inside, rest, hinside, rfl, hrest⟩
      cases i with
      | zero =>
        cases hinside
        exact .inl ⟨rest, hrest, rfl⟩
      | succ i =>
        exact .inr ⟨i, inside, rest, hinside, by rw [Nat.add_right_comm, Nat.add_assoc], hrest⟩

/-- Paths through an earlier sibling come before those through a later one. -/
theorem pairwise_through {siblings : List (List (List Nat))}
    (h : ∀ inside ∈ siblings, inside.Pairwise (· < ·)) (start : Nat) :
    (through start siblings).Pairwise (· < ·) := by
  induction siblings generalizing start with
  | nil => exact .nil
  | cons first later ih =>
    have hfirst := h first List.mem_cons_self
    rw [through, List.pairwise_append, List.pairwise_map]
    refine ⟨hfirst.imp List.cons_lt_cons_self.2,
      ih (fun inside hi => h inside (List.mem_cons_of_mem _ hi)) _,
      fun path hpath path' hpath' => ?_⟩
    obtain ⟨rest, -, rfl⟩ := List.mem_map.1 hpath
    obtain ⟨i, -, rest', -, rfl, -⟩ := mem_through.1 hpath'
    exact List.cons_lt_cons_iff.2 (.inl (by omega))

/-! ### Paths to all nodes -/

mutual

/-- The paths to the nodes of a tree, each before those that it begins. -/
def paths : Node → List (List Nat)
  | ⟨_, _, _, children⟩ => [] :: pathsFrom 0 children

/-- The paths to the nodes of siblings, of which the first is child number `i`. -/
def pathsFrom (i : Nat) : List Node → List (List Nat)
  | [] => []
  | n :: ns => n.paths.map (i :: ·) ++ pathsFrom (i + 1) ns

end

private theorem pathsFrom_eq (i : Nat) (ns : List Node) :
    pathsFrom i ns = through i (ns.map paths) := by
  induction ns generalizing i with
  | nil => rfl
  | cons n ns ih => rw [pathsFrom, ih, List.map_cons, through]

theorem paths_eq (n : Node) : n.paths = [] :: through 0 (n.children.map paths) := by
  rcases n with ⟨kind, span, excerpt, children⟩
  rw [paths, pathsFrom_eq]

/-- There is a node at the end of a path exactly when the path is listed. -/
theorem mem_paths_iff : path ∈ n.paths ↔ (n.nodeAt? path).isSome = true := by
  induction path generalizing n with
  | nil => simp [paths_eq, nodeAt?]
  | cons i path ih =>
    rw [paths_eq, List.mem_cons, mem_through]
    simp only [List.cons_ne_nil, false_or, List.getElem?_map, Option.map_eq_some_iff, Nat.zero_add,
      List.cons.injEq, Option.isSome_iff_exists, nodeAt?_cons_eq_some]
    constructor
    · rintro ⟨_, _, _, ⟨c, hc, rfl⟩, ⟨rfl, rfl⟩, hpath⟩
      obtain ⟨m, hm⟩ := Option.isSome_iff_exists.1 (ih.1 hpath)
      exact ⟨m, c, hc, hm⟩
    · rintro ⟨m, c, hc, hm⟩
      exact ⟨i, c.paths, path, ⟨c, hc, rfl⟩, ⟨rfl, rfl⟩, ih.2 (Option.isSome_iff_exists.2 ⟨m, hm⟩)⟩

/-- A node comes before the nodes below it, and those before the nodes to its right. -/
theorem pairwise_paths (n : Node) : n.paths.Pairwise (· < ·) := by
  induction n with
  | node kind span excerpt children ih =>
    rw [paths_eq, List.pairwise_cons]
    constructor
    · intro path hpath
      obtain ⟨i, inside, rest, -, rfl, -⟩ := mem_through.1 hpath
      exact List.nil_lt_cons _ _
    · exact pairwise_through (List.forall_mem_map.2 ih) 0

/-! ### Walks along the paths -/

/-- The visit `v` is at the end of a path from `n`. Its ancestors are those of `n` and then the
nodes at the proper beginnings of the path, from `n` down; its place among its siblings is the last
step of the path, or that of `n`. -/
structure Meets (n : Node) (above : List Node) (place : Nat) (path : List Nat) (v : Visit) :
    Prop where
  node : n.nodeAt? path = some v.node
  ancestors : v.ancestors.map some =
    above.map some ++ (List.range path.length).map fun k => n.nodeAt? (path.take k)
  index : v.index = path.getLast?.getD place

theorem Meets.of_child {c : Node} {above : List Node} {i place : Nat} {v : Visit}
    (hc : n.children[i]? = some c) (h : c.Meets (above ++ [n]) i path v) :
    n.Meets above place (i :: path) v where
  node := nodeAt?_cons_eq_some.2 ⟨c, hc, h.node⟩
  ancestors := by
    have hbelow : ∀ k, n.nodeAt? ((i :: path).take (k + 1)) = c.nodeAt? (path.take k) := by
      intro k
      rw [List.take_succ_cons, nodeAt?, hc, Option.bind_some]
    rw [h.ancestors, List.map_append, List.append_assoc, List.length_cons, List.range_succ_eq_map]
    simp only [List.map_cons, List.map_map, Function.comp_def, Nat.succ_eq_add_one, hbelow]
    rfl
  index := by
    rw [h.index, List.getLast?_cons]
    rfl

private theorem walkAll_paths {ns before : List Node} (hn : n.children = before ++ ns)
    (hns : ∀ c ∈ ns, ∀ a i, List.Forall₂ (c.Meets a i) c.paths (walkFrom a i c)) (a : List Node)
    (place : Nat) :
    List.Forall₂ (n.Meets a place) (pathsFrom before.length ns)
      (walkAll (a ++ [n]) before.length ns) := by
  induction ns generalizing before with
  | nil => exact .nil
  | cons c cs ih =>
    have hc : n.children[before.length]? = some c := by
      rw [hn, List.getElem?_append_right (Nat.le_refl _), Nat.sub_self]
      rfl
    have hfirst : List.Forall₂ (n.Meets a place) (c.paths.map (before.length :: ·))
        (walkFrom (a ++ [n]) before.length c) := by
      refine List.forall₂_map_left_iff.2 ((hns c List.mem_cons_self _ _).imp fun path v hv => ?_)
      exact hv.of_child hc
    have hlater :=
      ih (hn.trans (List.append_cons before c cs)) fun d hd => hns d (List.mem_cons_of_mem _ hd)
    rw [List.length_append, List.length_singleton] at hlater
    rw [pathsFrom, walkAll]
    exact List.rel_append hfirst hlater

private theorem walkFrom_paths (n : Node) (a : List Node) (i : Nat) :
    List.Forall₂ (n.Meets a i) n.paths (walkFrom a i n) := by
  induction n generalizing a i with
  | node kind span excerpt children ih =>
    rw [paths, walkFrom]
    refine .cons ⟨rfl, ?_, rfl⟩ (walkAll_paths (List.nil_append _).symm ih a i)
    rw [List.length_nil, List.range_zero, List.map_nil, List.append_nil]

/-- A walk follows the paths, one by one. -/
theorem walk_paths (n : Node) : List.Forall₂ (n.Meets [] 0) n.paths n.walk := walkFrom_paths n [] 0

/-- Every visit ends a path, and every path ends in a visit. -/
theorem exists_meets_of_mem_walk {v : Visit} (hv : v ∈ n.walk) : ∃ path, n.Meets [] 0 path v := by
  obtain ⟨i, hi, rfl⟩ := List.mem_iff_getElem.1 hv
  obtain ⟨hlength, hmeets⟩ := List.forall₂_iff_get.1 n.walk_paths
  exact ⟨_, hmeets i (hlength ▸ hi) hi⟩

theorem exists_mem_walk (h : n.nodeAt? path = some m) :
    ∃ v ∈ n.walk, v.node = m ∧ n.Meets [] 0 path v := by
  have hpath : path ∈ n.paths := mem_paths_iff.2 (Option.isSome_iff_exists.2 ⟨m, h⟩)
  obtain ⟨i, hi, rfl⟩ := List.mem_iff_getElem.1 hpath
  obtain ⟨hlength, hmeets⟩ := List.forall₂_iff_get.1 n.walk_paths
  have hv := hmeets i hi (hlength ▸ hi)
  exact ⟨_, List.getElem_mem _, Option.some.inj (hv.node.symm.trans h), hv⟩

/-- The parent of a node that is met stands at the path without its last step. -/
theorem Meets.getLast?_ancestors {front : List Nat} {i : Nat} {v : Visit}
    (h : n.Meets [] 0 (front ++ [i]) v) : v.ancestors.getLast? = n.nodeAt? front := by
  have hlast := congrArg List.getLast? h.ancestors
  rw [List.map_nil, List.nil_append, List.getLast?_map, List.getLast?_map, List.length_append,
    List.length_singleton, List.range_succ, List.getLast?_concat, Option.map_some,
    List.take_left] at hlast
  obtain ⟨parent, hparent, he⟩ := Option.map_eq_some_iff.1 hlast
  rw [hparent, he]

theorem map_nodeAt?_paths (n : Node) : n.paths.map n.nodeAt? = n.descendants.map some := by
  rw [← map_node_walk, List.map_map]
  have hnodes : List.Forall₂ (· = ·) (n.paths.map n.nodeAt?) (n.walk.map (some ∘ Visit.node)) := by
    rw [List.forall₂_map_left_iff, List.forall₂_map_right_iff]
    exact n.walk_paths.imp fun _ _ h => h.node
  exact List.forall₂_eq_eq_eq ▸ hnodes

end ContractAtlas.Node
