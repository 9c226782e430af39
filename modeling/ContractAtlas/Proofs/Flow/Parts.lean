import ContractAtlas.Proofs.Flow.Moves
import ContractAtlas.Proofs.Flow.Paths

/-! The parts of an expression, in the order in which the builder goes through them. What an
expression gives back are those of its reads that are made in no assignment or update inside it. -/
namespace ContractAtlas

namespace FlowGraph
variable {g g' g'' : FlowGraph} {a id : Nat}

/-- The larger graph has more points behind the old ones, and more edges into those only. -/
structure Grows (g g' : FlowGraph) : Prop where
  points : g.points <+: g'.points
  edges : g.edges ⊆ g'.edges
  targets : ∀ e ∈ g'.edges, e ∈ g.edges ∨ g.points.length ≤ e.target

theorem Grows.refl (g : FlowGraph) : g.Grows g :=
  ⟨List.prefix_rfl, List.Subset.refl _, fun _ he => .inl he⟩

theorem Grows.length_le (h : g.Grows g') : g.points.length ≤ g'.points.length := h.points.length_le

theorem Grows.trans (h : g.Grows g') (h' : g'.Grows g'') : g.Grows g'' where
  points := h.points.trans h'.points
  edges := List.Subset.trans h.edges h'.edges
  targets := by
    intro e he
    rcases h'.targets e he with he | htarget
    · exact h.targets e he
    · exact .inr (Nat.le_trans h.length_le htarget)

theorem Reads.lt_length (h : g.Reads id) : id < g.points.length := by
  obtain ⟨p, hp, -⟩ := h
  exact lt_of_mem_point? hp

theorem Grows.reads_iff (h : g.Grows g') (hid : id < g.points.length) :
    g'.Reads id ↔ g.Reads id := by
  obtain ⟨rest, hrest⟩ := h.points
  rw [Reads, Reads, point?, point?, ← hrest, List.getElem?_append_left hid]

/-- What flows into an old point stays the same. -/
theorem Grows.joined_iff (h : g.Grows g') (hid : id < g.points.length) :
    g'.Joined a id ↔ g.Joined a id := by
  constructor
  · rintro ⟨e, he, hsource, rfl⟩
    rcases h.targets e he with he | htarget
    · exact ⟨e, he, hsource, rfl⟩
    · exact absurd hid (Nat.not_lt.2 htarget)
  · rintro ⟨e, he, hends⟩
    exact ⟨e, h.edges he, hends⟩

theorem grows_withPoint {p : FlowPoint} {edges : List FlowEdge}
    (hedges : ∀ e ∈ edges, e.target = g.points.length) : g.Grows (g.withPoint p edges) where
  points := List.prefix_append _ _
  edges := List.subset_append_left _ _
  targets := by
    intro e he
    rcases List.mem_append.1 he with he | he
    · exact .inl he
    · exact .inr (Nat.le_of_eq (hedges e he).symm)

end FlowGraph

namespace FlowBuilder
variable {b b' : FlowBuilder}

theorem target_of_mem_readEdges {name : String} {e : FlowEdge} (he : e ∈ b.readEdges name) :
    e.target = b.graph.points.length := by
  obtain ⟨write, -, rfl⟩ := List.mem_map.1 he
  rfl

theorem Step.grows (h : b.Step b') : b.graph.Grows b'.graph := by
  cases h with
  | read name span statement kind =>
    rw [read_eq]
    exact FlowGraph.grows_withPoint fun e he => target_of_mem_readEdges he
  | write name span statement kind sources isDirect =>
    rw [write_eq]
    exact FlowGraph.grows_withPoint fun e he => target_of_mem_writeEdges he

theorem Moves.grows (h : b.Moves b') : b.graph.Grows b'.graph := by
  induction h with
  | refl => exact .refl _
  | tail _ hstep ih => exact ih.trans hstep.grows

end FlowBuilder

/-- What the builder goes through for its reads: an expression, or the keys in an assignment
target. -/
inductive FlowPart
  | expression (kind : FlowKind) (n : Node)
  | keys (target : Node)

namespace FlowPart

def node : FlowPart → Node
  | expression _ n => n
  | keys target => target

def run (statement : Text) : FlowPart → FlowBuilder → List Nat × FlowBuilder
  | expression kind n, b => Node.reads statement kind n b
  | keys target, b => Node.targetKeys statement target b

def runAll (statement : Text) : List FlowPart → FlowBuilder → List Nat × FlowBuilder
  | [], b => ([], b)
  | q :: qs, b =>
    let first := q.run statement b
    let rest := runAll statement qs first.2
    (first.1 ++ rest.1, rest.2)

/-- The parts that the builder goes through on its way through this one. -/
def inner : FlowPart → List FlowPart
  | expression kind n =>
    match n.kind, n.children with
    | .assignment _, target :: values => values.map (expression .direct) ++ [keys target]
    | .call _, callee :: arguments =>
      (if callee.identifier?.isSome then [] else [expression kind callee]) ++
        arguments.map (expression kind)
    | .identifier _, _ | .update _, _ | .literal _, _ | .elementaryType _, _ | .creation _, _ => []
    | _, children => children.map (expression kind)
  | keys target =>
    match target.kind, target.children with
    | .indexAccess, base :: indexes => indexes.map (expression .direct) ++ [keys base]
    | .memberAccess _, object :: _ => [keys object]
    | _, _ => []

def isName : FlowPart → Bool
  | expression _ n => n.identifier?.isSome
  | keys _ => false

/-- An assignment or an update, which gives back no reads. -/
def isWrite : FlowPart → Bool
  | expression _ n => n.isWriteExpression
  | keys _ => false

/-- On its way through the part `q` from `b` on, the builder comes to the part `p` as `b'`. -/
inductive Visits (statement : Text) : FlowPart → FlowBuilder → FlowPart → FlowBuilder → Prop
  | here (q : FlowPart) (b : FlowBuilder) : Visits statement q b q b
  | inside {q c p : FlowPart} {b b' : FlowBuilder} {i : Nat} (hc : q.inner[i]? = some c)
    (h : Visits statement c (runAll statement (q.inner.take i) b).2 p b') :
    Visits statement q b p b'

/-- The point of this number is made in an assignment or an update inside `q`. -/
def Buries (statement : Text) (q : FlowPart) (b : FlowBuilder) (id : Nat) : Prop :=
  ∃ p b', q.Visits statement b p b' ∧ p.isWrite = true ∧ b'.graph.points.length ≤ id ∧
    id < (p.run statement b').2.graph.points.length

def BuriesAmong (statement : Text) (qs : List FlowPart) (b : FlowBuilder) (id : Nat) : Prop :=
  ∃ i, ∃ q : FlowPart, qs[i]? = some q ∧ q.Buries statement (runAll statement (qs.take i) b).2 id

theorem node_mem_children {q c : FlowPart} (hc : c ∈ q.inner) : c.node ∈ q.node.children := by
  have hmap : ∀ {kind} {ns : List Node}, c ∈ ns.map (expression kind) → c.node ∈ ns := by
    intro kind ns hmem
    obtain ⟨n, hn, rfl⟩ := List.mem_map.1 hmem
    exact hn
  cases q with
  | expression kind n =>
    rcases n with ⟨nodeKind, span, excerpt, children⟩
    cases nodeKind with
    | identifier | update | literal | elementaryType | creation => cases hc
    | assignment operator =>
      cases children with
      | nil => cases hc
      | cons target values =>
        rcases List.mem_append.1 hc with hc | hc
        · exact List.mem_cons_of_mem _ (hmap hc)
        · cases List.mem_singleton.1 hc
          exact List.mem_cons_self
    | call site =>
      cases children with
      | nil => cases hc
      | cons callee arguments =>
        rcases List.mem_append.1 hc with hc | hc
        · split at hc
          · cases hc
          · cases List.mem_singleton.1 hc
            exact List.mem_cons_self
        · exact List.mem_cons_of_mem _ (hmap hc)
    | _ => exact hmap hc
  | keys target =>
    rcases target with ⟨nodeKind, span, excerpt, children⟩
    cases nodeKind with
    | indexAccess =>
      cases children with
      | nil => cases hc
      | cons base indexes =>
        rcases List.mem_append.1 hc with hc | hc
        · exact List.mem_cons_of_mem _ (hmap hc)
        · cases List.mem_singleton.1 hc
          exact List.mem_cons_self
    | memberAccess member =>
      cases children with
      | nil => cases hc
      | cons object rest =>
        cases List.mem_singleton.1 hc
        exact List.mem_cons_self
    | _ => cases hc

theorem inner_of_isName {q : FlowPart} (h : q.isName = true) : q.inner = [] := by
  cases q with
  | keys target => cases h
  | expression kind n =>
    rcases n with ⟨nodeKind, span, excerpt, children⟩
    cases nodeKind with
    | identifier name => rfl
    | _ => cases h

/-- Induction on a part, with the hypothesis for the parts inside. -/
theorem induct {P : FlowPart → Prop} (step : ∀ q, (∀ c ∈ q.inner, P c) → P q) (q : FlowPart) :
    P q := by
  have hnode : ∀ (n : Node) (q : FlowPart), q.node = n → P q := by
    intro n
    induction n with
    | node kind span excerpt children ih =>
      intro q hq
      refine step q fun c hc => ih c.node ?_ c rfl
      have hchild := node_mem_children hc
      rw [hq] at hchild
      exact hchild
  exact hnode q.node q rfl

section Run
variable (statement : Text)

theorem runAll_map (kind : FlowKind) (ns : List Node) (b : FlowBuilder) :
    runAll statement (ns.map (expression kind)) b = Node.readsAll statement kind ns b := by
  induction ns generalizing b with
  | nil => rfl
  | cons n ns ih =>
    rw [List.map_cons, runAll, ih, Node.readsAll]
    rfl

theorem runAll_append (qs rs : List FlowPart) (b : FlowBuilder) :
    runAll statement (qs ++ rs) b =
      ((runAll statement qs b).1 ++ (runAll statement rs (runAll statement qs b).2).1,
        (runAll statement rs (runAll statement qs b).2).2) := by
  induction qs generalizing b with
  | nil => rfl
  | cons q qs ih => simp only [List.cons_append, runAll, ih, List.append_assoc]

theorem runAll_singleton (q : FlowPart) (b : FlowBuilder) :
    runAll statement [q] b = q.run statement b := by
  rw [runAll, runAll, List.append_nil]

theorem run_of_isName {q : FlowPart} (h : q.isName = true) (b : FlowBuilder) :
    ∃ name span kind, q.run statement b =
      ([b.graph.points.length], (b.read name span statement kind).2) := by
  cases q with
  | keys target => cases h
  | expression kind n =>
    rcases n with ⟨nodeKind, span, excerpt, children⟩
    cases nodeKind with
    | identifier name =>
      refine ⟨name, span, kind, ?_⟩
      rw [run, Node.reads, FlowBuilder.read_eq]
    | _ => cases h

theorem run_fst_of_isWrite {q : FlowPart} (h : q.isWrite = true) (b : FlowBuilder) :
    (q.run statement b).1 = [] := by
  cases q with
  | keys target => cases h
  | expression kind n =>
    rcases n with ⟨nodeKind, span, excerpt, children⟩
    cases nodeKind with
    | assignment operator => cases children <;> rfl
    | update operator => rfl
    | _ => cases h

/-- Any other part gives back what the parts inside give back. -/
theorem run_eq_runAll {q : FlowPart} (hname : q.isName = false) (hwrite : q.isWrite = false)
    (b : FlowBuilder) : q.run statement b = runAll statement q.inner b := by
  cases q with
  | expression kind n =>
    rcases n with ⟨nodeKind, span, excerpt, children⟩
    cases nodeKind with
    | identifier => cases hname
    | assignment | update => cases hwrite
    | literal | elementaryType | creation => rfl
    | call site =>
      cases children with
      | nil => rfl
      | cons callee arguments =>
        rw [run, Node.reads, inner, runAll_append, runAll_map]
        by_cases hcallee : callee.identifier?.isSome = true
        · rw [if_pos hcallee, if_pos hcallee]
          rfl
        · rw [if_neg hcallee, if_neg hcallee, runAll_singleton]
          rfl
    | _ => exact (runAll_map statement kind children b).symm
  | keys target =>
    rcases target with ⟨nodeKind, span, excerpt, children⟩
    cases nodeKind with
    | indexAccess =>
      cases children with
      | nil => rfl
      | cons base indexes =>
        rw [run, Node.targetKeys, inner, runAll_append, runAll_map, runAll_singleton]
        rfl
    | memberAccess member =>
      cases children with
      | nil => rfl
      | cons object rest =>
        rw [inner, runAll_singleton]
        rfl
    | _ => rfl

theorem moves_run (q : FlowPart) (b : FlowBuilder) : b.Moves (q.run statement b).2 := by
  cases q with
  | expression kind n => exact (Node.moves_reads statement n).1 kind b
  | keys target => exact (Node.moves_reads statement target).2 b

theorem moves_runAll (qs : List FlowPart) (b : FlowBuilder) :
    b.Moves (runAll statement qs b).2 := by
  induction qs generalizing b with
  | nil => exact .refl b
  | cons q qs ih => exact (q.moves_run statement b).trans (ih _)

/-- Behind the parts inside, an assignment goes on with its writes. -/
theorem moves_inner (q : FlowPart) (b : FlowBuilder) :
    (runAll statement q.inner b).2.Moves (q.run statement b).2 := by
  cases hwrite : q.isWrite with
  | false =>
    cases hname : q.isName with
    | false =>
      rw [run_eq_runAll statement hname hwrite]
      exact .refl _
    | true =>
      rw [inner_of_isName hname]
      exact q.moves_run statement b
  | true =>
    cases q with
    | keys target => cases hwrite
    | expression kind n =>
      rcases n with ⟨nodeKind, span, excerpt, children⟩
      cases nodeKind with
      | assignment operator =>
        cases children with
        | nil => exact .refl b
        | cons target values =>
          rw [inner, runAll_append, runAll_map, runAll_singleton]
          exact Node.moves_writeAll statement _ _ _ _ _ _
      | update operator => exact Node.moves_updateAll statement children b
      | _ => cases hwrite

/-- Behind the part of number `i` the builder goes through the later ones. -/
theorem moves_later {qs : List FlowPart} {i : Nat} {c : FlowPart} (hc : qs[i]? = some c)
    (b : FlowBuilder) :
    (c.run statement (runAll statement (qs.take i) b).2).2.Moves (runAll statement qs b).2 := by
  obtain ⟨hi, rfl⟩ := List.getElem?_eq_some_iff.1 hc
  have hsplit : runAll statement qs b =
      runAll statement (qs.take i ++ qs[i] :: qs.drop (i + 1)) b := by
    rw [List.getElem_cons_drop, List.take_append_drop]
  rw [hsplit, runAll_append]
  exact moves_runAll statement (qs.drop (i + 1)) _

end Run

section Visits
variable {statement : Text} {q p : FlowPart} {qs : List FlowPart} {b b' : FlowBuilder} {id : Nat}

theorem Visits.moves (h : q.Visits statement b p b') :
    b.Moves b' ∧ (p.run statement b').2.Moves (q.run statement b).2 := by
  induction h with
  | here q b => exact ⟨.refl _, .refl _⟩
  | @inside q c p b b' i hc _ ih =>
    obtain ⟨hbefore, hafter⟩ := ih
    have hinner := moves_later statement hc b
    exact ⟨(moves_runAll statement _ b).trans hbefore,
      (hafter.trans hinner).trans (q.moves_inner statement b)⟩

/-- What the builder comes to stands in the tree. -/
theorem Visits.node_mem (h : q.Visits statement b p b') : p.node ∈ q.node.descendants := by
  induction h with
  | here q b => exact q.node.self_mem_descendants
  | @inside q c p b b' i hc _ ih =>
    rw [Node.descendants_eq]
    have hchild := node_mem_children (List.mem_of_getElem? hc)
    exact List.mem_cons_of_mem _ (List.mem_flatMap.2 ⟨c.node, hchild, ih⟩)

theorem Buries.bounds (h : q.Buries statement b id) :
    b.graph.points.length ≤ id ∧ id < (q.run statement b).2.graph.points.length := by
  obtain ⟨p, b', hvisits, -, hlow, hhigh⟩ := h
  obtain ⟨hbefore, hafter⟩ := hvisits.moves
  have := hbefore.grows.length_le
  have := hafter.grows.length_le
  omega

/-- What is buried in a part that is no write itself is buried in a part inside. -/
theorem buries_iff_inner (hwrite : q.isWrite = false) :
    q.Buries statement b id ↔ BuriesAmong statement q.inner b id := by
  constructor
  · rintro ⟨p, b', hvisits, hp, hid⟩
    cases hvisits with
    | here => exact absurd hp (Bool.eq_false_iff.1 hwrite)
    | inside hc hinner => exact ⟨_, _, hc, p, b', hinner, hp, hid⟩
  · rintro ⟨i, c, hc, p, b', hvisits, hp, hid⟩
    exact ⟨p, b', .inside hc hvisits, hp, hid⟩

theorem buriesAmong_nil : ¬ BuriesAmong statement [] b id := by
  rintro ⟨i, q, hq, -⟩
  cases hq

theorem buriesAmong_cons : BuriesAmong statement (q :: qs) b id ↔
    q.Buries statement b id ∨ BuriesAmong statement qs (q.run statement b).2 id := by
  rw [BuriesAmong, ← Nat.or_exists_add_one]
  simp only [List.getElem?_cons_zero, Option.some.injEq, exists_eq_left', List.take_zero,
    List.getElem?_cons_succ, List.take_succ_cons, runAll, BuriesAmong]

theorem BuriesAmong.le (h : BuriesAmong statement qs b id) : b.graph.points.length ≤ id := by
  obtain ⟨i, q, -, hburies⟩ := h
  exact Nat.le_trans (moves_runAll statement _ b).grows.length_le hburies.bounds.1

/-- Parts give back those of their reads that are not buried, if each of them does. -/
theorem mem_runAll_iff (hqs : ∀ q ∈ qs, ∀ b : FlowBuilder, id ∈ (q.run statement b).1 ↔
      b.graph.points.length ≤ id ∧ (q.run statement b).2.graph.Reads id ∧ ¬ q.Buries statement b id)
    (b : FlowBuilder) : id ∈ (runAll statement qs b).1 ↔ b.graph.points.length ≤ id ∧
      (runAll statement qs b).2.graph.Reads id ∧ ¬ BuriesAmong statement qs b id := by
  induction qs generalizing b with
  | nil =>
    refine iff_of_false List.not_mem_nil fun h => ?_
    exact Nat.not_lt.2 h.1 h.2.1.lt_length
  | cons q qs ih =>
    obtain ⟨hq, hrest⟩ := List.forall_mem_cons.1 hqs
    have hfirst := (q.moves_run statement b).grows.length_le
    have hlater := (moves_runAll statement qs (q.run statement b).2).grows
    rw [buriesAmong_cons, runAll, List.mem_append, hq b, ih hrest]
    rcases Nat.lt_or_ge id (q.run statement b).2.graph.points.length with hid | hid
    · -- a point of the first part: it is read there, and not buried in later ones
      have hnone : ¬ BuriesAmong statement qs (q.run statement b).2 id :=
        fun h => Nat.not_lt.2 h.le hid
      rw [hlater.reads_iff hid, or_iff_left hnone]
      exact or_iff_left fun h => Nat.not_lt.2 h.1 hid
    · have hnone : ¬ q.Buries statement b id := fun h => Nat.not_lt.2 hid h.bounds.2
      rw [or_iff_right hnone, or_iff_right fun h => Nat.not_lt.2 hid h.2.1.lt_length]
      exact and_congr_left fun _ => iff_of_true hid (Nat.le_trans hfirst hid)

/-- A part gives back exactly those of its reads that no assignment or update inside it makes. -/
theorem mem_run_iff (q : FlowPart) (b : FlowBuilder) : id ∈ (q.run statement b).1 ↔
    b.graph.points.length ≤ id ∧ (q.run statement b).2.graph.Reads id ∧
    ¬ q.Buries statement b id := by
  induction q using induct generalizing b with
  | step q ih =>
    cases hwrite : q.isWrite with
    | true =>
      rw [run_fst_of_isWrite statement hwrite]
      refine iff_of_false List.not_mem_nil fun h => h.2.2 ?_
      exact ⟨q, b, .here q b, hwrite, h.1, h.2.1.lt_length⟩
    | false =>
      rw [buries_iff_inner hwrite]
      cases hname : q.isName with
      | false =>
        rw [run_eq_runAll statement hname hwrite]
        exact mem_runAll_iff ih b
      | true =>
        obtain ⟨name, span, kind, hrun⟩ := run_of_isName statement hname b
        rw [hrun, inner_of_isName hname, List.mem_singleton, FlowBuilder.read_eq]
        constructor
        · rintro rfl
          exact ⟨Nat.le_refl _, ⟨_, FlowGraph.point?_withPoint_self, rfl⟩, buriesAmong_nil⟩
        · rintro ⟨hlow, hread, -⟩
          have hhigh := hread.lt_length
          rw [FlowGraph.length_withPoint] at hhigh
          omega

end Visits

end FlowPart

end ContractAtlas
