import ContractAtlas.Proofs.Program.Paths
import ContractAtlas.Symbol.Usage
import Mathlib.Data.List.Flatten
import Mathlib.Data.List.Infix

/-! The candidates of a body cut its tree into parts that do not overlap. Nodes are told apart by
the paths that lead to them, since a tree may hold equal nodes at several places. -/
namespace ContractAtlas

namespace Node
variable {n m : Node} {path : List Nat}

mutual

/-- The paths to the candidates of a tree. -/
def candidatePaths : Node → List (List Nat)
  | ⟨kind, _, _, children⟩ => if kind.isCompound then candidatePathsFrom 0 children else [[]]

/-- The paths to the candidates of siblings, of which the first is child number `i`. -/
def candidatePathsFrom (i : Nat) : List Node → List (List Nat)
  | [] => []
  | n :: ns =>
    (if n.isStatement then candidatePaths n else [[]]).map (i :: ·) ++ candidatePathsFrom (i + 1) ns

end

theorem isCompound_of_not_isStatement (h : n.isStatement = false) : n.isCompound = false := by
  cases hcompound : n.isCompound with
  | false => rfl
  | true => exact absurd (NodeKind.isStatement_of_isCompound hcompound) (Bool.eq_false_iff.1 h)

theorem candidates_of_not_isCompound (h : n.isCompound = false) : n.candidates = [n] := by
  rcases n with ⟨kind, span, excerpt, children⟩
  rw [candidates]
  exact if_neg (Bool.eq_false_iff.1 h)

theorem candidatePaths_of_not_isCompound (h : n.isCompound = false) : n.candidatePaths = [[]] := by
  rcases n with ⟨kind, span, excerpt, children⟩
  rw [candidatePaths]
  exact if_neg (Bool.eq_false_iff.1 h)

private theorem candidatesIn_eq (ns : List Node) : candidatesIn ns = ns.flatMap candidates := by
  induction ns with
  | nil => rfl
  | cons n ns ih =>
    rw [candidatesIn, ih, List.flatMap_cons]
    split
    · rfl
    · rename_i h
      rw [candidates_of_not_isCompound (isCompound_of_not_isStatement (Bool.eq_false_iff.2 h))]

private theorem candidatePathsFrom_cons (i : Nat) (n : Node) (ns : List Node) :
    candidatePathsFrom i (n :: ns) =
      n.candidatePaths.map (i :: ·) ++ candidatePathsFrom (i + 1) ns := by
  rw [candidatePathsFrom]
  split
  · rfl
  · rename_i h
    rw [candidatePaths_of_not_isCompound (isCompound_of_not_isStatement (Bool.eq_false_iff.2 h))]

/-- A compound statement gives way to its children, whether these are statements or not. -/
theorem candidates_of_isCompound (h : n.isCompound = true) :
    n.candidates = n.children.flatMap candidates := by
  rcases n with ⟨kind, span, excerpt, children⟩
  rw [candidates, candidatesIn_eq]
  exact if_pos h

theorem candidatePaths_of_isCompound (h : n.isCompound = true) :
    n.candidatePaths = candidatePathsFrom 0 n.children := by
  rcases n with ⟨kind, span, excerpt, children⟩
  rw [candidatePaths]
  exact if_pos h

private theorem candidatePathsFrom_eq (i : Nat) (ns : List Node) :
    candidatePathsFrom i ns = through i (ns.map candidatePaths) := by
  induction ns generalizing i with
  | nil => rfl
  | cons n ns ih => rw [candidatePathsFrom_cons, ih, List.map_cons, through]

/-- The candidates of a compound statement are those of its children. -/
theorem mem_candidatePaths_of_isCompound (h : n.isCompound = true) :
    path ∈ n.candidatePaths ↔
      ∃ i c rest, n.children[i]? = some c ∧ path = i :: rest ∧ rest ∈ c.candidatePaths := by
  rw [candidatePaths_of_isCompound h, candidatePathsFrom_eq, mem_through]
  simp only [List.getElem?_map, Option.map_eq_some_iff, Nat.zero_add]
  constructor
  · rintro ⟨i, _, rest, ⟨c, hc, rfl⟩, hpath, hrest⟩
    exact ⟨i, c, rest, hc, hpath, hrest⟩
  · rintro ⟨i, c, rest, hc, hpath, hrest⟩
    exact ⟨i, _, rest, ⟨c, hc, rfl⟩, hpath, hrest⟩

/-- The paths lead to the candidates, one by one. -/
theorem map_nodeAt?_candidatePaths (n : Node) :
    n.candidatePaths.map n.nodeAt? = n.candidates.map some := by
  induction n with
  | node kind span excerpt children ih =>
    cases h : isCompound ⟨kind, span, excerpt, children⟩ with
    | false =>
      rw [candidatePaths_of_not_isCompound h, candidates_of_not_isCompound h]
      rfl
    | true =>
      -- The siblings before those at hand only shift the numbers that the paths begin with.
      have hfrom : ∀ before ns, children = before ++ ns →
          (candidatePathsFrom before.length ns).map (nodeAt? ⟨kind, span, excerpt, children⟩) =
            (ns.flatMap candidates).map some := by
        intro before ns
        induction ns generalizing before with
        | nil => exact fun _ => rfl
        | cons c cs ihs =>
          intro he
          have hc : children[before.length]? = some c := by
            rw [he, List.getElem?_append_right (Nat.le_refl _), Nat.sub_self]
            rfl
          have hfirst : (c.candidatePaths.map (before.length :: ·)).map
              (nodeAt? ⟨kind, span, excerpt, children⟩) = c.candidates.map some := by
            rw [List.map_map, ← ih c (List.mem_of_getElem? hc)]
            refine List.map_congr_left fun path _ => ?_
            rw [Function.comp_apply, nodeAt?, hc, Option.bind_some]
          have hrest := ihs (before ++ [c]) (he.trans (List.append_cons before c cs))
          rw [List.length_append, List.length_singleton] at hrest
          rw [candidatePathsFrom_cons, List.map_append, hfirst, hrest, List.flatMap_cons,
            List.map_append]
      rw [candidatePaths_of_isCompound h, candidates_of_isCompound h]
      exact hfrom [] children rfl

/-- Candidates come in the order of a walk through the tree. -/
theorem candidates_sublist (n : Node) : n.candidates.Sublist n.descendants := by
  induction n with
  | node kind span excerpt children ih =>
    rw [descendants_eq]
    cases h : isCompound ⟨kind, span, excerpt, children⟩ with
    | false =>
      rw [candidates_of_not_isCompound h]
      exact List.Sublist.cons_cons _ (List.nil_sublist _)
    | true =>
      rw [candidates_of_isCompound h]
      exact (List.Sublist.flatMap_right _ ih).cons _

/-- A path to a candidate starts at a compound statement, or else it ends there. -/
theorem mem_candidatePaths_cases (h : path ∈ n.candidatePaths) :
    n.isCompound = false ∧ path = [] ∨ n.isCompound = true ∧
      ∃ i c rest, n.children[i]? = some c ∧ path = i :: rest ∧ rest ∈ c.candidatePaths := by
  cases hcompound : n.isCompound with
  | false =>
    rw [candidatePaths_of_not_isCompound hcompound] at h
    exact .inl ⟨rfl, List.mem_singleton.1 h⟩
  | true => exact .inr ⟨rfl, (mem_candidatePaths_of_isCompound hcompound).1 h⟩

/-- No candidate is a compound statement. -/
theorem exists_of_mem_candidatePaths (h : path ∈ n.candidatePaths) :
    ∃ m, n.nodeAt? path = some m ∧ m.isCompound = false := by
  induction path generalizing n with
  | nil =>
    rcases mem_candidatePaths_cases h with ⟨hcompound, -⟩ | ⟨-, i, c, rest, -, he, -⟩
    · exact ⟨n, rfl, hcompound⟩
    · cases he
  | cons i path ih =>
    rcases mem_candidatePaths_cases h with ⟨-, he⟩ | ⟨-, j, c, rest, hc, he, hrest⟩
    · cases he
    · cases he
      obtain ⟨m, hm, hcompound⟩ := ih hrest
      exact ⟨m, nodeAt?_cons_eq_some.2 ⟨c, hc, hm⟩, hcompound⟩

/-- A candidate lies neither above nor below another one. -/
theorem eq_of_prefix_of_mem_candidatePaths {path' : List Nat} (h : path ∈ n.candidatePaths)
    (h' : path' ∈ n.candidatePaths) (hunder : path <+: path') : path = path' := by
  induction path generalizing n path' with
  | nil =>
    rcases mem_candidatePaths_cases h with ⟨hcompound, -⟩ | ⟨-, i, c, rest, -, he, -⟩
    · rw [candidatePaths_of_not_isCompound hcompound] at h'
      exact (List.mem_singleton.1 h').symm
    · cases he
  | cons i path ih =>
    rcases mem_candidatePaths_cases h with ⟨-, he⟩ | ⟨hcompound, j, c, rest, hc, he, hrest⟩
    · cases he
    · cases he
      obtain ⟨k, d, rest', hd, rfl, hrest'⟩ := (mem_candidatePaths_of_isCompound hcompound).1 h'
      obtain ⟨rfl, hbelow⟩ := List.cons_prefix_cons.1 hunder
      cases hc.symm.trans hd
      rw [ih hrest hrest' hbelow]

/-- The paths stand in dictionary order: what is to the left of another node comes before it. -/
theorem pairwise_candidatePaths (n : Node) : n.candidatePaths.Pairwise (· < ·) := by
  induction n with
  | node kind span excerpt children ih =>
    cases h : isCompound ⟨kind, span, excerpt, children⟩ with
    | false =>
      rw [candidatePaths_of_not_isCompound h]
      exact List.pairwise_singleton _ _
    | true =>
      rw [candidatePaths_of_isCompound h, candidatePathsFrom_eq]
      exact pairwise_through (List.forall_mem_map.2 ih) 0

/-- All nodes on the way are compound statements, the first and the last one included. -/
def OnlyCompound (n : Node) (path : List Nat) : Prop :=
  ∀ above, above <+: path → ∃ a, n.nodeAt? above = some a ∧ a.isCompound = true

theorem onlyCompound_cons {i : Nat} {c : Node} (hn : n.isCompound = true)
    (hc : n.children[i]? = some c) (h : c.OnlyCompound path) : n.OnlyCompound (i :: path) := by
  intro above habove
  rcases List.prefix_cons_iff.1 habove with rfl | ⟨rest, rfl, hrest⟩
  · exact ⟨n, rfl, hn⟩
  · obtain ⟨a, ha, hcompound⟩ := h rest hrest
    exact ⟨a, nodeAt?_cons_eq_some.2 ⟨c, hc, ha⟩, hcompound⟩

/-- On every way that leaves the compound statements there is a candidate. -/
theorem onlyCompound_or_exists (h : n.nodeAt? path = some m) :
    n.OnlyCompound path ∨ ∃ place ∈ n.candidatePaths, place <+: path := by
  induction path generalizing n with
  | nil =>
    cases hn : n.isCompound with
    | false =>
      rw [candidatePaths_of_not_isCompound hn]
      exact .inr ⟨[], List.mem_cons_self, List.prefix_rfl⟩
    | true =>
      refine .inl fun above habove => ?_
      cases List.prefix_nil.1 habove
      exact ⟨n, rfl, hn⟩
  | cons i path ih =>
    cases hn : n.isCompound with
    | false =>
      rw [candidatePaths_of_not_isCompound hn]
      exact .inr ⟨[], List.mem_cons_self, List.nil_prefix⟩
    | true =>
      obtain ⟨c, hc, hm⟩ := nodeAt?_cons_eq_some.1 h
      rcases ih hm with hall | ⟨place, hplace, hunder⟩
      · exact .inl (onlyCompound_cons hn hc hall)
      · refine .inr ⟨i :: place, ?_, List.cons_prefix_cons.2 ⟨rfl, hunder⟩⟩
        exact (mem_candidatePaths_of_isCompound hn).2 ⟨i, c, place, hc, rfl, hplace⟩

theorem not_onlyCompound {place : List Nat} (hplace : place ∈ n.candidatePaths)
    (hunder : place <+: path) : ¬ n.OnlyCompound path := by
  intro hall
  obtain ⟨a, ha, hcompound⟩ := hall place hunder
  obtain ⟨a', ha', hplain⟩ := exists_of_mem_candidatePaths hplace
  cases ha.symm.trans ha'
  exact Bool.false_ne_true (hplain.symm.trans hcompound)

/-- For every tree: no candidate lies above or below another one or comes twice, and they come in
the order of a walk through the tree, each node before its children. Of the nodes of the tree those
that are compound statements under compound statements only belong to no candidate, and every other
one is or lies below exactly one candidate. -/
theorem candidates_partition (n : Node) :
    n.candidatePaths.map n.nodeAt? = n.candidates.map some ∧
      (n.candidatePaths.Pairwise fun path path' =>
        path < path' ∧ ¬ path <+: path' ∧ ¬ path' <+: path) ∧
      n.candidates.Sublist n.descendants ∧
      ∀ path m, n.nodeAt? path = some m →
        Xor (n.OnlyCompound path) (∃! place, place ∈ n.candidatePaths ∧ place <+: path) := by
  refine ⟨n.map_nodeAt?_candidatePaths, ?_, n.candidates_sublist, fun path m hm => ?_⟩
  · refine n.pairwise_candidatePaths.imp_of_mem fun {path path'} h h' hlt => ⟨hlt, ?_, ?_⟩
    · intro hunder
      rw [eq_of_prefix_of_mem_candidatePaths h h' hunder] at hlt
      exact List.lt_irrefl _ hlt
    · intro hunder
      rw [eq_of_prefix_of_mem_candidatePaths h' h hunder] at hlt
      exact List.lt_irrefl _ hlt
  · rcases onlyCompound_or_exists hm with hall | ⟨place, hplace, hunder⟩
    · refine .inl ⟨hall, ?_⟩
      rintro ⟨place, ⟨hplace, hunder⟩, -⟩
      exact not_onlyCompound hplace hunder hall
    · refine .inr ⟨⟨place, ⟨hplace, hunder⟩, ?_⟩, not_onlyCompound hplace hunder⟩
      rintro other ⟨hother, hunder'⟩
      rcases List.prefix_or_prefix_of_prefix hunder' hunder with h | h
      · exact eq_of_prefix_of_mem_candidatePaths hother hplace h
      · exact (eq_of_prefix_of_mem_candidatePaths hplace hother h).symm

end Node

namespace Sample

/-- A conditional statement before another statement. -/
def forking : Node :=
  let call : Node := { kind := .expressionStatement, children := [{ kind := .identifier "b" }] }
  { kind := .block
    children := [{ kind := .ifStatement, children := [{ kind := .identifier "a" }, call] },
      { kind := .returnStatement }] }

end Sample

namespace Node

/-- The condition, the statement under it and the statement behind it are candidates; what stands in
the second of these is below it and below no other. -/
theorem candidates_partition_sample :
    Sample.forking.candidatePaths = [[0, 0], [0, 1], [1]] ∧
      Sample.forking.nodeAt? [0, 1, 0] = some { kind := .identifier "b" } ∧
      ∃! place, place ∈ Sample.forking.candidatePaths ∧ place <+: [0, 1, 0] := by
  have hinner : Sample.forking.nodeAt? [0, 1, 0] = some { kind := .identifier "b" } := rfl
  obtain ⟨-, -, -, hpart⟩ := candidates_partition Sample.forking
  refine ⟨by decide, hinner, ?_⟩
  rcases hpart _ _ hinner with ⟨hall, -⟩ | ⟨hplace, -⟩
  · obtain ⟨a, ha, hcompound⟩ := hall [0, 1] (by decide)
    cases ha
    cases hcompound
  · exact hplace

end Node

end ContractAtlas
