import ContractAtlas.Flow.Graph
import Mathlib.Data.List.Nodup
import Mathlib.Logic.Relation

/-! Graphs of definitions and uses: every read is joined to the definition that it sees, and what
flows into a write was read before. Points come with the edges into them, so it is enough to say
what one more point may bring. -/
namespace ContractAtlas

namespace FlowGraph

/-- A value of the variable starts at this point: it is written there, or comes in as a
parameter. -/
def Defines (g : FlowGraph) (name : String) (id : Nat) : Prop :=
  ∃ p ∈ g.point? id, p.variableName = name ∧ (p.isWrite = true ∨ p.kind = .parameter)

/-- The point of this number is a read. -/
def Reads (g : FlowGraph) (id : Nat) : Prop := ∃ p ∈ g.point? id, p.isRead = true

/-- The last point before `limit` at which a value of the variable starts. -/
def LatestDefinition (g : FlowGraph) (name : String) (limit id : Nat) : Prop :=
  id < limit ∧ g.Defines name id ∧ ∀ i, id < i → i < limit → ¬ g.Defines name i

/-- The edges into a point. -/
def incoming (g : FlowGraph) (id : Nat) : List FlowEdge := g.edges.filter fun e => e.target == id

/-- One direct edge from the latest definition before the point, or none if there is no
definition. -/
def SuppliedBy (g : FlowGraph) (name : String) (id : Nat) (edges : List FlowEdge) : Prop :=
  (∃ source, g.LatestDefinition name id source ∧
    edges = [{ source := source, target := id, kind := .direct }]) ∨
    (∀ i < id, ¬ g.Defines name i) ∧ edges = []

/-- A graph of definitions and uses. -/
structure DefUse (g : FlowGraph) : Prop where
  numbered : ∀ id, ∀ p ∈ g.point? id, p.id = id
  /-- Edges join points, and go from lower to higher numbers. -/
  ordered : ∀ e ∈ g.edges, e.source < e.target ∧ e.target < g.points.length
  /-- A read sees the latest definition of its variable. -/
  reads : ∀ id, ∀ p ∈ g.point? id, p.isRead = true → p.kind ≠ .parameter →
    g.SuppliedBy p.variableName id (g.incoming id)
  /-- What flows into a write was read before. -/
  writes : ∀ e ∈ g.edges, ∀ p ∈ g.point? e.target, p.isWrite = true → g.Reads e.source
  /-- No two edges join the same points. -/
  simple : (g.edges.map fun e => (e.source, e.target)).Nodup

/-- No point flows into itself. -/
theorem DefUse.acyclic {g : FlowGraph} (h : g.DefUse) (id : Nat) :
    ¬ Relation.TransGen (fun a b => (a, b) ∈ g.steps) id id := by
  have hstep : ∀ a b, (a, b) ∈ g.steps → a < b := by
    intro a b hab
    obtain ⟨e, he, heq⟩ := List.mem_map.1 hab
    cases heq
    exact (h.ordered e he).1
  have hpath : ∀ b, Relation.TransGen (fun a b => (a, b) ∈ g.steps) id b → id < b := by
    intro b hb
    induction hb with
    | single hab => exact hstep _ _ hab
    | tail _ hbc ih => exact Nat.lt_trans ih (hstep _ _ hbc)
  exact fun hid => Nat.lt_irrefl id (hpath id hid)

section WithPoint
variable {g : FlowGraph} {p : FlowPoint} {edges : List FlowEdge}

/-- The graph with one more point and the edges into it. -/
def withPoint (g : FlowGraph) (p : FlowPoint) (edges : List FlowEdge) : FlowGraph where
  points := g.points ++ [{ p with id := g.points.length }]
  edges := g.edges ++ edges
  index := g.index.update p.variableName [] (· ++ [g.points.length])

theorem length_withPoint : (g.withPoint p edges).points.length = g.points.length + 1 :=
  List.length_append

theorem point?_withPoint {id : Nat} (hid : id < g.points.length) :
    (g.withPoint p edges).point? id = g.point? id :=
  List.getElem?_append_left hid

theorem point?_withPoint_self :
    (g.withPoint p edges).point? g.points.length = some { p with id := g.points.length } :=
  List.getElem?_concat_length

theorem lt_of_mem_point? {id : Nat} {q : FlowPoint} (h : q ∈ g.point? id) : id < g.points.length :=
  (List.getElem?_eq_some_iff.1 h).1

/-- A point of the larger graph is an old one or the new one. -/
theorem mem_point?_withPoint {id : Nat} {q : FlowPoint} (h : q ∈ (g.withPoint p edges).point? id) :
    q ∈ g.point? id ∨ id = g.points.length ∧ q = { p with id := g.points.length } := by
  have hid := lt_of_mem_point? h
  rw [length_withPoint] at hid
  rcases Nat.lt_succ_iff_lt_or_eq.1 hid with hlt | rfl
  · rw [point?_withPoint hlt] at h
    exact .inl h
  · rw [point?_withPoint_self] at h
    exact .inr ⟨rfl, (Option.some.inj h).symm⟩

theorem defines_withPoint {name : String} {id : Nat} (hid : id < g.points.length) :
    (g.withPoint p edges).Defines name id ↔ g.Defines name id := by
  rw [Defines, Defines, point?_withPoint hid]

theorem defines_withPoint_self {name : String} :
    (g.withPoint p edges).Defines name g.points.length ↔
    p.variableName = name ∧ (p.isWrite = true ∨ p.kind = .parameter) := by
  rw [Defines, point?_withPoint_self]
  constructor
  · rintro ⟨q, hq, h⟩
    cases hq
    exact h
  · exact fun h => ⟨_, rfl, h⟩

theorem Reads.withPoint {id : Nat} (h : g.Reads id) : (g.withPoint p edges).Reads id := by
  obtain ⟨q, hq, hread⟩ := h
  refine ⟨q, ?_, hread⟩
  rw [point?_withPoint (lt_of_mem_point? hq)]
  exact hq

theorem latestDefinition_withPoint {name : String} {limit id : Nat}
    (hlimit : limit ≤ g.points.length) :
    (g.withPoint p edges).LatestDefinition name limit id ↔ g.LatestDefinition name limit id := by
  constructor
  · rintro ⟨hid, hdefines, hlast⟩
    refine ⟨hid, (defines_withPoint (by omega)).1 hdefines, fun i hi hlt hdef => ?_⟩
    exact hlast i hi hlt ((defines_withPoint (by omega)).2 hdef)
  · rintro ⟨hid, hdefines, hlast⟩
    refine ⟨hid, (defines_withPoint (by omega)).2 hdefines, fun i hi hlt hdef => ?_⟩
    exact hlast i hi hlt ((defines_withPoint (by omega)).1 hdef)

theorem SuppliedBy.withPoint {name : String} {id : Nat} {into : List FlowEdge}
    (h : g.SuppliedBy name id into) (hid : id ≤ g.points.length) :
    (g.withPoint p edges).SuppliedBy name id into := by
  rcases h with ⟨source, hlatest, hinto⟩ | ⟨hnone, hinto⟩
  · exact .inl ⟨source, (latestDefinition_withPoint hid).2 hlatest, hinto⟩
  · refine .inr ⟨fun i hi hdef => hnone i hi ?_, hinto⟩
    exact (defines_withPoint (by omega)).1 hdef

/-- A point that defines nothing of the variable leaves its latest definition. -/
theorem LatestDefinition.withPoint {name : String} {id : Nat}
    (h : g.LatestDefinition name g.points.length id)
    (hself : ¬ (g.withPoint p edges).Defines name g.points.length) :
    (g.withPoint p edges).LatestDefinition name (g.withPoint p edges).points.length id := by
  obtain ⟨hid, hdefines, hlast⟩ := (latestDefinition_withPoint (Nat.le_refl _)).2 h
  rw [length_withPoint]
  refine ⟨by omega, hdefines, fun i hi hlt hdef => ?_⟩
  rcases Nat.lt_succ_iff_lt_or_eq.1 hlt with hold | rfl
  · exact hlast i hi hold hdef
  · exact hself hdef

theorem undefined_withPoint {name : String} (h : ∀ i < g.points.length, ¬ g.Defines name i)
    (hself : ¬ (g.withPoint p edges).Defines name g.points.length) :
    ∀ i < (g.withPoint p edges).points.length, ¬ (g.withPoint p edges).Defines name i := by
  intro i hi hdef
  rw [length_withPoint] at hi
  rcases Nat.lt_succ_iff_lt_or_eq.1 hi with hold | rfl
  · exact h i hold ((defines_withPoint hold).1 hdef)
  · exact hself hdef

/-- The edges that come with a point all lead into it. -/
theorem incoming_withPoint (hedges : ∀ e ∈ edges, e.target = g.points.length) {id : Nat}
    (hid : id < g.points.length) : (g.withPoint p edges).incoming id = g.incoming id := by
  have hnone : edges.filter (fun e => e.target == id) = [] := by
    refine List.filter_eq_nil_iff.2 fun e he htarget => ?_
    have := hedges e he
    have := beq_iff_eq.1 htarget
    omega
  rw [incoming, FlowGraph.withPoint, List.filter_append, hnone, List.append_nil, incoming]

theorem DefUse.incoming_withPoint_self (h : g.DefUse)
    (hedges : ∀ e ∈ edges, e.target = g.points.length) :
    (g.withPoint p edges).incoming g.points.length = edges := by
  have hold : g.edges.filter (fun e => e.target == g.points.length) = [] := by
    refine List.filter_eq_nil_iff.2 fun e he htarget => ?_
    have := (h.ordered e he).2
    have := beq_iff_eq.1 htarget
    omega
  have hnew : edges.filter (fun e => e.target == g.points.length) = edges := by
    refine List.filter_eq_self.2 fun e he => ?_
    exact beq_iff_eq.2 (hedges e he)
  rw [incoming, FlowGraph.withPoint, List.filter_append, hold, hnew, List.nil_append]

/-- A graph of definitions and uses stays one if the new point has distinct earlier sources, which
are the latest definition for a read and reads for a write. -/
theorem DefUse.withPoint (h : g.DefUse)
    (hedges : ∀ e ∈ edges, e.source < g.points.length ∧ e.target = g.points.length)
    (hdistinct : (edges.map FlowEdge.source).Nodup)
    (hread : p.isRead = true → p.kind ≠ .parameter →
      g.SuppliedBy p.variableName g.points.length edges)
    (hwrite : p.isWrite = true → ∀ e ∈ edges, g.Reads e.source) :
    (g.withPoint p edges).DefUse where
  numbered := by
    intro id q hq
    rcases mem_point?_withPoint hq with hq | ⟨rfl, rfl⟩
    · exact h.numbered id q hq
    · rfl
  ordered := by
    intro e he
    rw [length_withPoint]
    rcases List.mem_append.1 he with he | he
    · have := h.ordered e he
      omega
    · have := hedges e he
      omega
  reads := by
    intro id q hq hisRead hkind
    have htargets := fun e he => (hedges e he).2
    rcases mem_point?_withPoint hq with hq | ⟨rfl, rfl⟩
    · have hid := lt_of_mem_point? hq
      rw [incoming_withPoint htargets hid]
      exact (h.reads id q hq hisRead hkind).withPoint (Nat.le_of_lt hid)
    · rw [h.incoming_withPoint_self htargets]
      exact (hread hisRead hkind).withPoint (Nat.le_refl _)
  writes := by
    intro e he q hq hisWrite
    rcases List.mem_append.1 he with he | he
    · rw [point?_withPoint (h.ordered e he).2] at hq
      exact (h.writes e he q hq hisWrite).withPoint
    · rw [(hedges e he).2, point?_withPoint_self] at hq
      cases hq
      exact (hwrite hisWrite e he).withPoint
  simple := by
    rw [FlowGraph.withPoint, List.map_append]
    refine h.simple.append ?_ ?_
    · refine List.Nodup.of_map Prod.fst ?_
      rw [List.map_map]
      exact hdistinct
    · -- old edges end before the new point
      intro ends hold hnew
      obtain ⟨e, he, rfl⟩ := List.mem_map.1 hold
      obtain ⟨e', he', heq⟩ := List.mem_map.1 hnew
      have htarget : e'.target = e.target := congrArg Prod.snd heq
      have := (h.ordered e he).2
      have := (hedges e' he').2
      omega

end WithPoint

theorem foldl_addEdge (edges : List FlowEdge) (g : FlowGraph) :
    edges.foldl addEdge g = { g with edges := g.edges ++ edges } := by
  induction edges generalizing g with
  | nil => rw [List.foldl_nil, List.append_nil]
  | cons e edges ih =>
    rw [List.foldl_cons, ih]
    simp only [addEdge, List.append_assoc, List.singleton_append]

end FlowGraph

end ContractAtlas
