import ContractAtlas.Flow.Graph
import ContractAtlas.Proofs.Reach
import Mathlib.Data.List.Nodup

/-! Tracing a variable. However points and edges come, the index knows the points of every variable;
a trace brings together what the search finds from each of them. -/
namespace ContractAtlas

namespace FlowGraph
variable {g : FlowGraph}

/-- What can be added to a graph. -/
inductive Addition
  | point (p : FlowPoint)
  | edge (e : FlowEdge)

def add (g : FlowGraph) : Addition → FlowGraph
  | .point p => (g.addPoint p).2
  | .edge e => g.addEdge e

/-- The graph that comes of these additions, one after the other. -/
def build (additions : List Addition) : FlowGraph := additions.foldl add {}

/-- Points have their places as numbers, and the index lists those of each variable in order. -/
structure Indexed (g : FlowGraph) : Prop where
  numbered : g.points.map FlowPoint.id = List.range g.points.length
  listed : ∀ name, (g.index.lookup name).getD [] =
    (g.points.filter (·.variableName == name)).map FlowPoint.id

theorem Indexed.addPoint (h : g.Indexed) (p : FlowPoint) : (g.addPoint p).2.Indexed where
  numbered := by
    simp only [FlowGraph.addPoint, List.map_append, List.map_cons, List.map_nil, List.length_append,
      List.length_cons, List.length_nil, h.numbered, List.range_succ]
  listed := by
    intro name
    simp only [FlowGraph.addPoint, Entries.lookup_update, List.filter_append, List.map_append,
      h.listed p.variableName]
    by_cases hname : name = p.variableName
    · subst hname
      simp
    · have hother : (p.variableName == name) = false := beq_eq_false_iff_ne.2 (Ne.symm hname)
      simp [hname, hother, h.listed name]

theorem Indexed.add (h : g.Indexed) (a : Addition) : (g.add a).Indexed := by
  cases a with
  | point p => exact h.addPoint p
  | edge e => exact ⟨h.numbered, h.listed⟩

theorem indexed_build (additions : List Addition) : (build additions).Indexed := by
  have hrun : ∀ g : FlowGraph, g.Indexed → (additions.foldl FlowGraph.add g).Indexed := by
    induction additions with
    | nil => exact fun g hg => hg
    | cons a additions ih => exact fun g hg => ih (g.add a) (hg.add a)
  exact hrun {} ⟨rfl, fun _ => rfl⟩

theorem Indexed.id_eq (h : g.Indexed) {id : Nat} {p : FlowPoint} (hp : p ∈ g.point? id) :
    p.id = id := by
  have hmap : (g.points.map FlowPoint.id)[id]? = some p.id := by
    rw [List.getElem?_map, show g.points[id]? = some p from hp, Option.map_some]
  rw [h.numbered] at hmap
  obtain ⟨hid, hget⟩ := List.getElem?_eq_some_iff.1 hmap
  rw [← hget, List.getElem_range]

theorem Indexed.mem_points_iff (h : g.Indexed) {p : FlowPoint} :
    p ∈ g.points ↔ g.point? p.id = some p := by
  constructor
  · intro hp
    obtain ⟨id, hid⟩ := List.mem_iff_getElem?.1 hp
    rw [h.id_eq hid]
    exact hid
  · exact fun hp => List.mem_of_getElem? hp

/-- What the index gives are the points of the variable, in the order of all points. -/
theorem Indexed.pointsFor_eq (h : g.Indexed) (name : String) :
    g.pointsFor name = g.points.filter (·.variableName == name) := by
  rw [pointsFor, h.listed name, List.filterMap_map]
  have hfetch : ∀ p ∈ g.points.filter (·.variableName == name),
      (g.point? ∘ FlowPoint.id) p = some p :=
    fun p hp => h.mem_points_iff.1 (List.mem_of_mem_filter hp)
  rw [List.filterMap_congr hfetch, List.filterMap_some]

theorem Indexed.mem_pointsFor_iff (h : g.Indexed) {name : String} {p : FlowPoint} :
    p ∈ g.pointsFor name ↔ g.point? p.id = some p ∧ p.variableName = name := by
  rw [h.pointsFor_eq, List.mem_filter, h.mem_points_iff, beq_iff_eq]

theorem Indexed.pairwise_pointsFor (h : g.Indexed) (name : String) :
    (g.pointsFor name).Pairwise fun p q => p.id < q.id := by
  have hall : (g.points.map FlowPoint.id).Pairwise (· < ·) := by
    rw [h.numbered]
    exact List.pairwise_lt_range
  rw [h.pointsFor_eq]
  exact (List.pairwise_map.1 hall).filter _

/-- The search finds this number from this point, in a direction that is asked for. -/
def Finds (g : FlowGraph) (depth : Nat) (direction : Direction) (p : FlowPoint) (id : Nat) : Prop :=
  (direction = .forward ∨ direction = .both) ∧ id ∈ g.forward p.id depth ∨
    (direction = .backward ∨ direction = .both) ∧ id ∈ g.backward p.id depth

theorem finds_iff {depth id : Nat} {direction : Direction} {p : FlowPoint} :
    g.Finds depth direction p id ↔
      id ∈ (if direction = .backward then [] else g.forward p.id depth) ++
        if direction = .forward then [] else g.backward p.id depth := by
  rw [Finds, List.mem_append]
  cases direction <;> simp

/-- A trace has the points under the numbers that are found from the points of the variable. -/
theorem mem_trace_iff {depth : Nat} {name : String} {direction : Direction} {q : FlowPoint} :
    q ∈ g.trace depth name direction ↔
      ∃ id, g.point? id = some q ∧ ∃ p ∈ g.pointsFor name, g.Finds depth direction p id := by
  simp only [trace, List.mem_filterMap, Reach.mem_fresh, List.mem_flatMap, ← finds_iff,
    List.not_mem_nil, not_false_eq_true, and_true]
  exact exists_congr fun id => and_comm

/-- Numbers found from several points are followed up once, so no point is traced twice. -/
theorem Indexed.nodup_trace (h : g.Indexed) (depth : Nat) (name : String) (direction : Direction) :
    ((g.trace depth name direction).map FlowPoint.id).Nodup := by
  rw [trace, List.map_filterMap]
  have hids := Reach.nodup_map_fresh (fun id : Nat => id) []
    ((g.pointsFor name).flatMap fun p =>
      (if direction = .backward then [] else g.forward p.id depth) ++
        if direction = .forward then [] else g.backward p.id depth)
  rw [List.map_id'] at hids
  refine hids.filterMap fun a a' b hb hb' => ?_
  obtain ⟨p, hp, rfl⟩ := Option.map_eq_some_iff.1 hb
  obtain ⟨p', hp', heq⟩ := Option.map_eq_some_iff.1 hb'
  rw [← h.id_eq hp, ← h.id_eq hp', heq]

/-- Whatever additions make up a graph, a variable has exactly the points of its name, in the order
of their numbers, and its trace at any depth has exactly the points that the search finds from one
of them in the direction asked for, each once. -/
theorem trace_exact (additions : List Addition) (name : String) (depth : Nat)
    (direction : Direction) :
    let g := build additions
    ((g.pointsFor name).Pairwise (fun p q => p.id < q.id) ∧
      ∀ p, p ∈ g.pointsFor name ↔ g.point? p.id = some p ∧ p.variableName = name) ∧
    ((g.trace depth name direction).map FlowPoint.id).Nodup ∧
    ∀ q, q ∈ g.trace depth name direction ↔
      g.point? q.id = some q ∧ ∃ p ∈ g.pointsFor name, g.Finds depth direction p q.id := by
  intro g
  have hg : g.Indexed := indexed_build additions
  refine ⟨⟨hg.pairwise_pointsFor name, fun p => hg.mem_pointsFor_iff⟩,
    hg.nodup_trace depth name direction, fun q => ?_⟩
  rw [mem_trace_iff]
  constructor
  · rintro ⟨id, hq, hfound⟩
    rw [hg.id_eq hq]
    exact ⟨hq, hfound⟩
  · exact fun h => ⟨q.id, h⟩

/-- Number 1 is found from both points of `x`, and number 7 has no point. -/
example :
    let point (name : String) : Addition :=
      .point { variableName := name, isRead := true, isWrite := false, kind := .direct }
    let edge (source target : Nat) : Addition := .edge { source, target, kind := .direct }
    let g := build [edge 1 7, point "x", point "y", edge 0 1, edge 2 1, point "x"]
    (g.trace 5 "x" .both).map FlowPoint.id = [1] := by decide

end FlowGraph

end ContractAtlas
