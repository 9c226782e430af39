import ContractAtlas.Flow.Builder
import ContractAtlas.Proofs.Flow.DefUse
import ContractAtlas.Proofs.Program.Walk
import Mathlib.Data.List.Induction

/-! How flow graphs are built. Whatever expressions and statements the builder goes through, in
between it has a graph of definitions and uses, knows the latest definition of every variable, and
keeps reads as guards. -/
namespace ContractAtlas

namespace FlowBuilder

/-- What holds between any two steps of the builder: the graph so far is one of definitions and
uses, the latest definition of every variable is known, and the guards are distinct reads. -/
structure Sound (b : FlowBuilder) : Prop where
  graph : b.graph.DefUse
  latest : ∀ name id, b.lastWrites.lookup name = some id →
    b.graph.LatestDefinition name b.graph.points.length id
  undefined : ∀ name, b.lastWrites.lookup name = none →
    ∀ i < b.graph.points.length, ¬ b.graph.Defines name i
  guards : ∀ guard ∈ b.guards, b.graph.Reads guard.1
  distinct : (b.guards.map Prod.fst).Nodup

theorem sound_empty : ({} : FlowBuilder).Sound where
  graph := ⟨nofun, nofun, nofun, nofun, .nil⟩
  latest := nofun
  undefined := fun _ _ i hi => absurd hi (Nat.not_lt_zero i)
  guards := nofun
  distinct := .nil

/-- The builder gets from `b` to `b'` with `ids` as numbers of new reads. -/
structure Advances (b : FlowBuilder) (ids : List Nat) (b' : FlowBuilder) : Prop where
  sound : b'.Sound
  grows : b.graph.points <+: b'.graph.points
  guards : b'.guards = b.guards
  reads : ∀ id ∈ ids, b.graph.points.length ≤ id ∧ b'.graph.Reads id
  distinct : ids.Nodup

/-- The sources of a write are distinct reads and no guards. -/
structure Sourced (b : FlowBuilder) (sources : List Nat) : Prop where
  reads : ∀ id ∈ sources, b.graph.Reads id
  distinct : sources.Nodup
  unguarded : ∀ id ∈ sources, ∀ guard ∈ b.guards, guard.1 ≠ id

variable {b b' b'' : FlowBuilder} {ids ids' sources : List Nat}

theorem sourced_nil (b : FlowBuilder) : b.Sourced [] := ⟨nofun, .nil, nofun⟩

theorem Sound.advances (h : b.Sound) : b.Advances [] b :=
  ⟨h, List.prefix_rfl, rfl, nofun, .nil⟩

theorem Advances.reads_mono (h : b.Advances ids b') {id : Nat} (hid : b.graph.Reads id) :
    b'.graph.Reads id := by
  obtain ⟨p, hp, hread⟩ := hid
  obtain ⟨rest, hrest⟩ := h.grows
  refine ⟨p, ?_, hread⟩
  rw [FlowGraph.point?, ← hrest, List.getElem?_append_left (FlowGraph.lt_of_mem_point? hp)]
  exact hp

theorem Advances.length_le (h : b.Advances ids b') :
    b.graph.points.length ≤ b'.graph.points.length := h.grows.length_le

theorem Advances.trans (h : b.Advances ids b') (h' : b'.Advances ids' b'') :
    b.Advances (ids ++ ids') b'' where
  sound := h'.sound
  grows := h.grows.trans h'.grows
  guards := h'.guards.trans h.guards
  reads := by
    intro id hid
    have hlength := h.length_le
    rcases List.mem_append.1 hid with hid | hid
    · exact ⟨(h.reads id hid).1, h'.reads_mono (h.reads id hid).2⟩
    · exact ⟨Nat.le_trans hlength (h'.reads id hid).1, (h'.reads id hid).2⟩
  distinct := by
    refine h.distinct.append h'.distinct fun id hid hid' => ?_
    -- the later reads have numbers that did not exist before
    obtain ⟨p, hp, -⟩ := (h.reads id hid).2
    have := FlowGraph.lt_of_mem_point? hp
    have := (h'.reads id hid').1
    omega

/-- Reads that nobody asks for can be forgotten. -/
theorem Advances.forget (h : b.Advances ids b') : b.Advances [] b' :=
  ⟨h.sound, h.grows, h.guards, nofun, .nil⟩

/-- New reads can be sources of a write beside older ones, and guards are older still. -/
theorem Advances.sourced (h : b.Advances ids b') (hb : b.Sound) (hs : b.Sourced sources) :
    b'.Sourced (sources ++ ids) where
  reads := by
    intro id hid
    rcases List.mem_append.1 hid with hid | hid
    · exact h.reads_mono (hs.reads id hid)
    · exact (h.reads id hid).2
  distinct := by
    refine hs.distinct.append h.distinct fun id hid hid' => ?_
    obtain ⟨p, hp, -⟩ := hs.reads id hid
    have := FlowGraph.lt_of_mem_point? hp
    have := (h.reads id hid').1
    omega
  unguarded := by
    rintro id hid guard hguard rfl
    rw [h.guards] at hguard
    rcases List.mem_append.1 hid with hid | hid
    · exact hs.unguarded _ hid guard hguard rfl
    · obtain ⟨p, hp, -⟩ := hb.guards guard hguard
      have := FlowGraph.lt_of_mem_point? hp
      have := (h.reads guard.1 hid).1
      omega

/-- The edge from the latest definition of a variable to a read of it that comes next. -/
def readEdges (b : FlowBuilder) (name : String) : List FlowEdge :=
  (b.lastWrites.lookup name).toList.map fun write =>
    { source := write, target := b.graph.points.length, kind := .direct }

/-- The edges from sources and guards to a write that comes next. -/
def writeEdges (b : FlowBuilder) (sources : List Nat) (isDirect : Bool) : List FlowEdge :=
  (sources.map fun source =>
    { source, target := b.graph.points.length, kind := if isDirect then .direct else .indirect }) ++
  b.guards.map fun guard =>
    { source := guard.1, target := b.graph.points.length, kind := .conditional,
      condition := some guard.2 }

theorem map_source_writeEdges (isDirect : Bool) :
    (b.writeEdges sources isDirect).map FlowEdge.source = sources ++ b.guards.map Prod.fst := by
  simp only [writeEdges, List.map_append, List.map_map, Function.comp_def, List.map_id']

theorem target_of_mem_writeEdges {isDirect : Bool} {e : FlowEdge}
    (he : e ∈ b.writeEdges sources isDirect) : e.target = b.graph.points.length := by
  rcases List.mem_append.1 he with he | he
  · obtain ⟨source, -, rfl⟩ := List.mem_map.1 he
    rfl
  · obtain ⟨guard, -, rfl⟩ := List.mem_map.1 he
    rfl

theorem read_eq (name : String) (span : Span) (statement : Text) (kind : FlowKind) :
    b.read name span statement kind = (b.graph.points.length,
      { b with
        graph := b.graph.withPoint
          { variableName := name, isRead := true, isWrite := false, kind, span, statement }
          (b.readEdges name) }) := by
  rw [read, readEdges]
  cases b.lastWrites.lookup name with
  | none => simp only [FlowGraph.addPoint, FlowGraph.withPoint, Option.toList_none, List.map_nil,
      List.append_nil]
  | some write => rfl

theorem write_eq (name : String) (span : Span) (statement : Text) (kind : FlowKind)
    (isDirect : Bool) :
    b.write name span statement kind sources isDirect =
      { b with
        graph := b.graph.withPoint
          { variableName := name, isRead := false, isWrite := true, kind, span, statement }
          (b.writeEdges sources isDirect)
        lastWrites := (name, b.graph.points.length) :: b.lastWrites } := by
  simp only [write, FlowGraph.addPoint, FlowGraph.foldl_addEdge, FlowGraph.withPoint, writeEdges]

/-- A point that defines nothing leaves the known definitions as they are. -/
theorem Sound.withUse (h : b.Sound) {p : FlowPoint} {edges : List FlowEdge}
    (hgraph : (b.graph.withPoint p edges).DefUse) (hwrite : p.isWrite = false)
    (hkind : p.kind ≠ .parameter) : { b with graph := b.graph.withPoint p edges }.Sound := by
  have hself : ∀ name, ¬ (b.graph.withPoint p edges).Defines name b.graph.points.length := by
    intro name hdef
    rcases (FlowGraph.defines_withPoint_self.1 hdef).2 with hw | hk
    · exact absurd (hw.symm.trans hwrite) Bool.noConfusion
    · exact hkind hk
  exact
    { graph := hgraph
      latest := fun name id hid => (h.latest name id hid).withPoint (hself name)
      undefined :=
        fun name hname => FlowGraph.undefined_withPoint (h.undefined name hname) (hself name)
      guards := fun guard hguard => (h.guards guard hguard).withPoint
      distinct := h.distinct }

/-- A point that defines its variable becomes the latest definition of it. -/
theorem Sound.withDefinition (h : b.Sound) {p : FlowPoint} {edges : List FlowEdge}
    (hgraph : (b.graph.withPoint p edges).DefUse)
    (hdefines : p.isWrite = true ∨ p.kind = .parameter) :
    { b with
      graph := b.graph.withPoint p edges
      lastWrites := (p.variableName, b.graph.points.length) :: b.lastWrites }.Sound := by
  have hself : ∀ name, name ≠ p.variableName →
      ¬ (b.graph.withPoint p edges).Defines name b.graph.points.length :=
    fun name hname hdef => hname (FlowGraph.defines_withPoint_self.1 hdef).1.symm
  refine ⟨hgraph, fun name id hid => ?_, fun name hname => ?_,
    fun guard hguard => (h.guards guard hguard).withPoint, h.distinct⟩
  · rw [List.lookup_cons] at hid
    by_cases he : name = p.variableName
    · subst he
      rw [beq_self_eq_true] at hid
      cases hid
      refine ⟨?_, FlowGraph.defines_withPoint_self.2 ⟨rfl, hdefines⟩, fun i hi hlt => ?_⟩
      · rw [FlowGraph.length_withPoint]
        omega
      · rw [FlowGraph.length_withPoint] at hlt
        omega
    · rw [beq_eq_false_iff_ne.2 he] at hid
      exact (h.latest name id hid).withPoint (hself name he)
  · rw [List.lookup_cons] at hname
    by_cases he : name = p.variableName
    · rw [beq_iff_eq.2 he] at hname
      cases hname
    · rw [beq_eq_false_iff_ne.2 he] at hname
      exact FlowGraph.undefined_withPoint (h.undefined name hname) (hself name he)

/-- The known definition of a variable is what a read of it has to be joined to. -/
theorem Sound.suppliedBy (h : b.Sound) (name : String) :
    b.graph.SuppliedBy name b.graph.points.length (b.readEdges name) := by
  rw [readEdges]
  cases hlookup : b.lastWrites.lookup name with
  | none => exact .inr ⟨h.undefined name hlookup, rfl⟩
  | some write => exact .inl ⟨write, h.latest name write hlookup, rfl⟩

theorem Sound.read (h : b.Sound) (name : String) (span : Span) (statement : Text) (kind : FlowKind)
    (hkind : kind ≠ .parameter) :
    b.Advances [(b.read name span statement kind).1] (b.read name span statement kind).2 := by
  have hedges : ∀ e ∈ b.readEdges name,
      e.source < b.graph.points.length ∧ e.target = b.graph.points.length := by
    intro e he
    obtain ⟨write, hwrite, rfl⟩ := List.mem_map.1 he
    exact ⟨(h.latest name write (Option.mem_toList.1 hwrite)).1, rfl⟩
  have hdistinct : ((b.readEdges name).map FlowEdge.source).Nodup := by
    rw [readEdges]
    cases b.lastWrites.lookup name with
    | none => exact .nil
    | some write => exact List.nodup_singleton write
  have hgraph := h.graph.withPoint
    (p := { variableName := name, isRead := true, isWrite := false, kind, span, statement })
    hedges hdistinct (fun _ _ => h.suppliedBy name) nofun
  rw [read_eq]
  refine ⟨h.withUse hgraph rfl hkind, List.prefix_append _ _, rfl, ?_, List.nodup_singleton _⟩
  intro id hid
  cases List.mem_singleton.1 hid
  exact ⟨Nat.le_refl _, _, FlowGraph.point?_withPoint_self, rfl⟩

theorem Sound.write (h : b.Sound) (name : String) (span : Span) (statement : Text) (kind : FlowKind)
    (isDirect : Bool) (hs : b.Sourced sources) :
    b.Advances [] (b.write name span statement kind sources isDirect) := by
  have hsource : ∀ e ∈ b.writeEdges sources isDirect, b.graph.Reads e.source := by
    intro e he
    have hmem : e.source ∈ sources ++ b.guards.map Prod.fst := by
      rw [← map_source_writeEdges isDirect]
      exact List.mem_map_of_mem he
    rcases List.mem_append.1 hmem with hid | hid
    · exact hs.reads _ hid
    · obtain ⟨guard, hguard, hid⟩ := List.mem_map.1 hid
      exact hid ▸ h.guards guard hguard
  have hedges : ∀ e ∈ b.writeEdges sources isDirect,
      e.source < b.graph.points.length ∧ e.target = b.graph.points.length := by
    intro e he
    obtain ⟨p, hp, -⟩ := hsource e he
    exact ⟨FlowGraph.lt_of_mem_point? hp, target_of_mem_writeEdges he⟩
  have hdistinct : ((b.writeEdges sources isDirect).map FlowEdge.source).Nodup := by
    rw [map_source_writeEdges]
    refine hs.distinct.append h.distinct fun id hid hguard => ?_
    obtain ⟨guard, hguard, he⟩ := List.mem_map.1 hguard
    exact hs.unguarded id hid guard hguard he
  have hgraph := h.graph.withPoint
    (p := { variableName := name, isRead := false, isWrite := true, kind, span, statement })
    hedges hdistinct nofun (fun _ => hsource)
  rw [write_eq]
  exact ⟨h.withDefinition hgraph (.inl rfl), List.prefix_append _ _, rfl, nofun, .nil⟩

/-- Steps that each leave the sources of a write usable can be taken one after the other. -/
theorem Sound.foldl {α : Type} {step : FlowBuilder → α → FlowBuilder}
    (hstep : ∀ (b : FlowBuilder) a, b.Sound → b.Sourced sources → b.Advances [] (step b a))
    (as : List α) (h : b.Sound) (hs : b.Sourced sources) : b.Advances [] (as.foldl step b) := by
  induction as generalizing b with
  | nil => exact h.advances
  | cons a as ih =>
    have hfirst := hstep b a h hs
    have hkept := hfirst.sourced h hs
    rw [List.append_nil] at hkept
    exact hfirst.trans (ih hfirst.sound hkept)

/-- The builder gets from `b` into the parts of a branch or a loop, where more guards may stand. -/
structure Enters (b b' : FlowBuilder) : Prop where
  sound : b'.Sound
  grows : b.graph.points <+: b'.graph.points
  guards : b.guards <+: b'.guards

theorem Advances.enters (h : b.Advances ids b') : b.Enters b' :=
  ⟨h.sound, h.grows, h.guards ▸ List.prefix_rfl⟩

theorem Enters.trans (h : b.Enters b') (h' : b'.Enters b'') : b.Enters b'' :=
  ⟨h'.sound, h.grows.trans h'.grows, h.guards.trans h'.guards⟩

/-- What a condition reads can guard the parts after it. -/
theorem Advances.guard (h : b.Advances ids b') (hb : b.Sound) (text : Text) :
    b.Enters { b' with guards := b'.guards ++ ids.map fun id => (id, text) } where
  sound :=
    { graph := h.sound.graph
      latest := h.sound.latest
      undefined := h.sound.undefined
      guards := by
        intro guard hguard
        rcases List.mem_append.1 hguard with hguard | hguard
        · exact h.sound.guards guard hguard
        · obtain ⟨id, hid, rfl⟩ := List.mem_map.1 hguard
          exact (h.reads id hid).2
      distinct := by
        have hsourced := h.sourced hb b.sourced_nil
        rw [List.map_append, List.map_map]
        refine h.sound.distinct.append ?_ fun id hold hnew => ?_
        · simpa only [Function.comp_def, List.map_id'] using h.distinct
        · simp only [Function.comp_def, List.map_id'] at hnew
          obtain ⟨guard, hguard, rfl⟩ := List.mem_map.1 hold
          exact hsourced.unguarded guard.1 hnew guard hguard rfl }
  grows := h.grows
  guards := h.guards ▸ List.prefix_append _ _

/-- Behind a branch or a loop its guards are taken away again. -/
theorem Enters.leave (h : b.Enters b') :
    b.Advances [] { b' with guards := b'.guards.take b.guards.length } where
  sound :=
    { graph := h.sound.graph
      latest := h.sound.latest
      undefined := h.sound.undefined
      guards := fun guard hguard => h.sound.guards guard (List.mem_of_mem_take hguard)
      distinct := h.sound.distinct.sublist ((List.take_sublist _ _).map Prod.fst) }
  grows := h.grows
  guards := (List.prefix_iff_eq_take.1 h.guards).symm
  reads := nofun
  distinct := .nil

theorem Sound.parameter (h : b.Sound) (name : String) (span : Span) (statement : Text) :
    { b with
      graph := b.graph.withPoint
        { variableName := name, isRead := true, isWrite := false, kind := .parameter, span,
          statement } []
      lastWrites := (name, b.graph.points.length) :: b.lastWrites }.Sound :=
  h.withDefinition (h.graph.withPoint nofun .nil (fun _ hkind => absurd rfl hkind) nofun) (.inr rfl)

end FlowBuilder

namespace Node

section Expressions
variable {b : FlowBuilder} {sources : List Nat} (statement : Text)

theorem advances_writeAll (h : b.Sound) (hs : b.Sourced sources) (span : Span)
    (isCompound isDirect : Bool) (names : List String) :
    b.Advances [] (writeAll statement span isCompound isDirect sources names b) := by
  refine FlowBuilder.Sound.foldl (fun b name hb hs => ?_) names h hs
  cases isCompound with
  | false => exact hb.write name span statement .direct isDirect hs
  | true =>
    -- the variable itself is one more source, read just before
    have hread := hb.read name span statement .direct nofun
    exact hread.forget.trans (hread.sound.write name span statement .direct isDirect
      (hread.sourced hb hs))

theorem advances_updateAll (h : b.Sound) (operands : List Node) :
    b.Advances [] (updateAll statement operands b) := by
  refine FlowBuilder.Sound.foldl (fun b operand hb hs => ?_) operands h b.sourced_nil
  refine FlowBuilder.Sound.foldl (fun b name hb hs => ?_) operand.writtenNames hb hs
  have hread := hb.read name operand.span statement .direct nofun
  exact hread.forget.trans (hread.sound.write name operand.span statement .direct false
    (hread.sourced hb hs))

theorem advances_readsAll {ns : List Node} {kind : FlowKind}
    (hns : ∀ c ∈ ns, ∀ b : FlowBuilder, b.Sound →
      b.Advances (reads statement kind c b).1 (reads statement kind c b).2)
    (h : b.Sound) :
    b.Advances (readsAll statement kind ns b).1 (readsAll statement kind ns b).2 := by
  induction ns generalizing b with
  | nil => exact h.advances
  | cons c cs ih =>
    have hfirst := hns c List.mem_cons_self b h
    rw [readsAll]
    exact hfirst.trans (ih (fun d hd => hns d (List.mem_cons_of_mem _ hd)) hfirst.sound)

theorem advances_reads (n : Node) :
    (∀ (kind : FlowKind) (b : FlowBuilder), kind ≠ .parameter → b.Sound →
      b.Advances (reads statement kind n b).1 (reads statement kind n b).2) ∧
    ∀ b : FlowBuilder, b.Sound →
      b.Advances (targetKeys statement n b).1 (targetKeys statement n b).2 := by
  induction n with
  | node nodeKind span excerpt children ih =>
    have hall : ∀ ns, ns ⊆ children → ∀ (kind : FlowKind) (b : FlowBuilder), kind ≠ .parameter →
        b.Sound → b.Advances (readsAll statement kind ns b).1 (readsAll statement kind ns b).2 :=
      fun ns hns kind b hkind hb => advances_readsAll statement
        (fun c hc b hb => (ih c (hns hc)).1 kind b hkind hb) hb
    constructor
    · intro kind b hkind hb
      cases nodeKind with
      | identifier name => exact hb.read name span statement kind hkind
      | assignment operator =>
        cases children with
        | nil => exact hb.advances
        | cons target values =>
          have hvalues := hall values (List.subset_cons_self target values) .direct b nofun hb
          have hkeys := (ih target List.mem_cons_self).2 _ hvalues.sound
          have hreads := hvalues.trans hkeys
          exact hreads.forget.trans
            (advances_writeAll statement hreads.sound (hreads.sourced hb b.sourced_nil) _ _ _ _)
      | update operator => exact advances_updateAll statement hb children
      | call site =>
        cases children with
        | nil => exact hb.advances
        | cons callee arguments =>
          have hcallee : b.Advances
              (if callee.identifier?.isSome then ([], b) else reads statement kind callee b).1
              (if callee.identifier?.isSome then ([], b) else reads statement kind callee b).2 := by
            split
            · exact hb.advances
            · exact (ih callee List.mem_cons_self).1 kind b hkind hb
          exact hcallee.trans
            (hall arguments (List.subset_cons_self callee arguments) kind _ hkind hcallee.sound)
      | literal | elementaryType | creation => exact hb.advances
      | _ => exact hall children (List.Subset.refl _) kind b hkind hb
    · intro b hb
      cases nodeKind with
      | indexAccess =>
        cases children with
        | nil => exact hb.advances
        | cons base keys =>
          have hkeys := hall keys (List.subset_cons_self base keys) .direct b nofun hb
          exact hkeys.trans ((ih base List.mem_cons_self).2 _ hkeys.sound)
      | memberAccess member =>
        cases children with
        | nil => exact hb.advances
        | cons object rest => exact (ih object List.mem_cons_self).2 b hb
      | _ => exact hb.advances

end Expressions

section Statements
variable {b : FlowBuilder}

theorem advances_expressions (statement : Text) (kind : FlowKind) (hkind : kind ≠ .parameter)
    (ns : List Node) (h : b.Sound) :
    b.Advances (readsAll statement kind ns b).1 (readsAll statement kind ns b).2 :=
  advances_readsAll statement (fun c _ b hb => (advances_reads statement c).1 kind b hkind hb) h

theorem enters_guardedFlow (statement : Text) {ns : List Node}
    (hns : ∀ c ∈ ns, ∀ b : FlowBuilder, b.Sound → b.Advances [] (flow c b)) (h : b.Sound) :
    b.Enters (guardedFlow statement ns b) := by
  induction ns generalizing b with
  | nil => exact h.advances.enters
  | cons c cs ih =>
    have hrest := fun b (hb : FlowBuilder.Sound b) => ih (b := b)
      (fun d hd => hns d (List.mem_cons_of_mem _ hd)) hb
    rw [guardedFlow]
    split
    · have hfirst := hns c List.mem_cons_self b h
      exact hfirst.enters.trans (hrest _ hfirst.sound)
    · split
      · have hfirst := (advances_reads statement c).1 .direct b nofun h
        exact hfirst.enters.trans (hrest _ hfirst.sound)
      · have hfirst := ((advances_reads statement c).1 .conditional b nofun h).guard h c.text
        exact hfirst.trans (hrest _ hfirst.sound)

theorem advances_partFlow (statement : Text) {ns : List Node}
    (hns : ∀ c ∈ ns, ∀ b : FlowBuilder, b.Sound → b.Advances [] (flow c b)) (h : b.Sound) :
    b.Advances [] (partFlow statement ns b) := by
  induction ns generalizing b with
  | nil => exact h.advances
  | cons c cs ih =>
    have hfirst : b.Advances []
        (if c.isStatement then flow c b else (reads statement .direct c b).2) := by
      split
      · exact hns c List.mem_cons_self b h
      · exact ((advances_reads statement c).1 .direct b nofun h).forget
    rw [partFlow]
    exact hfirst.trans (ih (fun d hd => hns d (List.mem_cons_of_mem _ hd)) hfirst.sound)

theorem advances_flow (n : Node) (h : b.Sound) : b.Advances [] (flow n b) := by
  induction n generalizing b with
  | node kind span excerpt children ih =>
    cases kind with
    | declaration names =>
      have hvalues := advances_expressions excerpt.text .direct nofun children h
      refine hvalues.forget.trans (FlowBuilder.Sound.foldl (fun b name hb hs => ?_) names
        hvalues.sound (hvalues.sourced h b.sourced_nil))
      exact hb.write name span excerpt.text .declaration _ hs
    | returnStatement => exact (advances_expressions excerpt.text .returned nofun children h).forget
    | ifStatement | whileLoop | forLoop | doWhileLoop =>
      exact (enters_guardedFlow excerpt.text (fun c hc b hb => ih c hc hb) h).leave
    | assembly => exact h.advances
    | _ => exact advances_partFlow excerpt.text (fun c hc b hb => ih c hc hb) h

end Statements

end Node

namespace Function

theorem sound_parameterFlow (f : Function) : f.parameterFlow.Sound := by
  rw [parameterFlow]
  induction f.parameterNames using List.reverseRecOn with
  | nil => exact FlowBuilder.sound_empty
  | append_singleton names name ih =>
    rw [List.foldl_concat]
    have hnext := ih.parameter name f.span f.source
    rw [FlowGraph.withPoint, List.append_nil] at hnext
    exact hnext

theorem defUse_flowGraph (f : Function) : f.flowGraph.DefUse := by
  rw [flowGraph]
  cases f.body with
  | none => exact f.sound_parameterFlow.graph
  | some body => exact (body.advances_flow f.sound_parameterFlow).sound.graph

/-- The flow graph of any function is a graph of definitions and uses, and has no cycle. -/
theorem flowGraph_defUse (f : Function) : f.flowGraph.DefUse ∧
    ∀ id, ¬ Relation.TransGen (fun a b => (a, b) ∈ f.flowGraph.steps) id id :=
  ⟨f.defUse_flowGraph, f.defUse_flowGraph.acyclic⟩

end Function

end ContractAtlas
