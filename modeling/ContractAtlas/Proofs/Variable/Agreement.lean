import ContractAtlas.Proofs.Flow.Building
import ContractAtlas.Proofs.Program.Registration
import ContractAtlas.Proofs.Variable.WriteSite

/-! The log of references and the flow graph, compared by the variables that they take for written.
Each records the writes that it sees, so they agree unless some variable is written only where one
of them looks. -/
namespace ContractAtlas

namespace Sighting

/-- The variables that some references write. -/
def written (sightings : List Sighting) : List String :=
  (sightings.filter fun s => s.reference.isWrite).map fun s => s.reference.name

@[simp] theorem written_append (a b : List Sighting) :
    written (a ++ b) = written a ++ written b := by
  rw [written, List.filter_append, List.map_append]
  rfl

theorem written_make (function name : String) (span : Span) (statement : Text) (path : AccessPath)
    (access : Access) (declares : Bool) :
    written [make function name span statement path access declares] =
      if access.writes then [name] else [] := by
  cases access <;> rfl

end Sighting

namespace Node

section Log
variable (function : String)

theorem written_of_identifier? {base : Node} {name : String} (h : base.identifier? = some name)
    (statement : Text) (access : Access) :
    Sighting.written (expressionSighting function statement access base) =
      if access.writes then [name] else [] := by
  rcases base with ⟨kind, span, excerpt, children⟩
  cases kind with
  | identifier name' =>
    cases h
    exact Sighting.written_make ..
  | _ => cases h

/-- The base of an index is written if the whole is, however that is recorded. -/
theorem written_index (statement : Text) (access : Access) (span : Span) (excerpt : Excerpt)
    (base : Node) (keys : List Node) :
    Sighting.written (expressionSighting function statement access
        ⟨.indexAccess, span, excerpt, base :: keys⟩) =
      Sighting.written (expressionSightings function statement .read keys) ++
        Sighting.written (expressionSighting function statement access base) := by
  rw [expressionSighting, Sighting.written_append]
  split
  · rename_i name hname
    rw [Sighting.written_make, written_of_identifier? function hname]
  · rfl

/-- So is the object of a member. -/
theorem written_member (statement : Text) (access : Access) (member : String) (span : Span)
    (excerpt : Excerpt) (object : Node) (rest : List Node) :
    Sighting.written (expressionSighting function statement access
        ⟨.memberAccess member, span, excerpt, object :: rest⟩) =
      Sighting.written (expressionSighting function statement access object) := by
  rw [expressionSighting]
  split
  · rename_i name hname
    rw [Sighting.written_make, written_of_identifier? function hname]
  · rfl

/-- A bare callee is not written, so calls need no case of their own. -/
theorem written_call (statement : Text) (access : Access) (site : CallSite) (span : Span)
    (excerpt : Excerpt) (callee : Node) (arguments : List Node) :
    Sighting.written (expressionSighting function statement access
        ⟨.call site, span, excerpt, callee :: arguments⟩) =
      Sighting.written (expressionSightings function statement .read (callee :: arguments)) := by
  rw [expressionSighting, expressionSightings, Sighting.written_append, Sighting.written_append]
  split
  · rename_i h
    obtain ⟨name, hname⟩ := Option.isSome_iff_exists.1 h
    rw [written_of_identifier? function hname]
    rfl
  · rfl

theorem written_expressionSightings {statement : Text} {access : Access} {role : Role} {w : Watch}
    {ns : List Node}
    (hns : ∀ c ∈ ns, Sighting.written (expressionSighting function statement access c) =
      WriteSite.names Watch.log (writesAs role w c)) :
    Sighting.written (expressionSightings function statement access ns) =
      WriteSite.names Watch.log (writesAll role w ns) := by
  induction ns with
  | nil => rfl
  | cons c cs ih =>
    rw [expressionSightings, writesAll, Sighting.written_append, WriteSite.names_append,
      hns c List.mem_cons_self, ih fun d hd => hns d (List.mem_cons_of_mem _ hd)]

theorem written_partSightings {statement : Text} {statements : Bool} {w : Watch} {ns : List Node}
    (hns : ∀ c ∈ ns,
      Sighting.written (expressionSighting function statement .read c) =
        WriteSite.names Watch.log (writesAs .value w c) ∧
      Sighting.written (sightings function c) =
        WriteSite.names Watch.log (statementWrites statements w c)) :
    Sighting.written (partSightings function statement ns) =
      WriteSite.names Watch.log (writesWithin statements w ns) := by
  induction ns with
  | nil => rfl
  | cons c cs ih =>
    rw [partSightings, writesWithin, Sighting.written_append, WriteSite.names_append,
      ih fun d hd => hns d (List.mem_cons_of_mem _ hd)]
    split
    · rw [(hns c List.mem_cons_self).2]
    · rw [(hns c List.mem_cons_self).1]

/-- The log records the writes that it is said to see, in order. -/
theorem written_sightings (n : Node) :
    (∀ (statement : Text) (access : Access) (role : Role) (w : Watch), w.log = true →
      access.writes = (role != .value) →
      Sighting.written (expressionSighting function statement access n) =
        WriteSite.names Watch.log (writesAs role w n)) ∧
    ∀ (statements : Bool) (w : Watch), w.log = true →
      Sighting.written (sightings function n) =
        WriteSite.names Watch.log (statementWrites statements w n) := by
  induction n with
  | node kind span excerpt children ih =>
    have hall : ∀ ns, ns ⊆ children →
      ∀ (statement : Text) (access : Access) (role : Role) (w : Watch),
        w.log = true → access.writes = (role != .value) →
        Sighting.written (expressionSightings function statement access ns) =
          WriteSite.names Watch.log (writesAll role w ns) :=
      fun ns hns statement access role w hw hrole => written_expressionSightings function
        fun c hc => (ih c (hns hc)).1 statement access role w hw hrole
    have hparts : ∀ (statement : Text) (statements : Bool) (w : Watch), w.log = true →
        Sighting.written (partSightings function statement children) =
          WriteSite.names Watch.log (writesWithin statements w children) :=
      fun statement statements w hw => written_partSightings function fun c hc =>
        ⟨(ih c hc).1 statement .read .value w hw rfl, (ih c hc).2 statements w hw⟩
    constructor
    · intro statement access role w hw hrole
      cases kind with
      | identifier name =>
        rw [expressionSighting, Sighting.written_make, hrole, writesAs]
        cases role <;> simp [WriteSite.names, hw]
      | indexAccess =>
        cases children with
        | nil => rfl
        | cons base keys =>
          have hkeys := hall keys (List.subset_cons_self base keys) statement .read .value
            (w.keys role) hw rfl
          have hbase := (ih base List.mem_cons_self).1 statement access role w hw hrole
          rw [written_index, writesAs, WriteSite.names_append, hkeys, hbase]
      | memberAccess member =>
        cases children with
        | nil => rfl
        | cons object rest =>
          have hobject := (ih object List.mem_cons_self).1 statement access role w hw hrole
          have hrest := WriteSite.names_unwatched (w := (w.inside role).unlogged) (fun _ h => h.log)
            rfl (within_writesAll .value _ rest)
          rw [written_member, writesAs, WriteSite.names_append, hrest, List.append_nil, hobject]
      | tuple | parenthesized =>
        -- written as parts of a group, the names are not logged
        have hgroup : WriteSite.names Watch.log (if role = .value then []
            else (writtenNamesIn children).map (⟨·, w.unlogged⟩)) = [] := by
          split
          · rfl
          · refine WriteSite.names_unseen fun s hs => ?_
            obtain ⟨name, -, rfl⟩ := List.mem_map.1 hs
            rfl
        rw [writesAs, WriteSite.names_append, hgroup, List.nil_append]
        exact hparts statement false _ hw
      | assignment operator =>
        cases children with
        | nil => rfl
        | cons target values =>
          have htarget := (ih target List.mem_cons_self).1 statement
            (if operator = "=" then .write else .readWrite) .target (w.inside role) hw
            (by split <;> rfl)
          have hvalues := hall values (List.subset_cons_self target values) statement .read .value
            (w.inside role) hw rfl
          rw [expressionSighting, writesAs, Sighting.written_append,
            WriteSite.names_append, htarget, hvalues]
      | update operator =>
        exact hall children (List.Subset.refl _) statement .readWrite .operand _ hw rfl
      | call site =>
        cases children with
        | nil => rfl
        | cons callee arguments =>
          rw [written_call]
          exact hall (callee :: arguments) (List.Subset.refl _) statement .read .value _ hw rfl
      | literal | elementaryType | creation => rfl
      | _ => exact hparts statement false _ hw
    · intro statements w hw
      cases kind with
      | declaration names =>
        have hnames : Sighting.written (names.map fun name =>
            Sighting.make function name span excerpt.text .direct .write true) = names := by
          induction names with
          | nil => rfl
          | cons name names ih => exact congrArg (name :: ·) ih
        have hvalues := hall children (List.Subset.refl _) excerpt.text .read .value w hw rfl
        rw [sightings, statementWrites, Sighting.written_append, WriteSite.names_append,
          hnames, hvalues, WriteSite.names_map (w := w.among statements) hw]
      | returnStatement => exact hparts excerpt.text false w hw
      | assembly =>
        exact (WriteSite.names_unwatched (w := (w.among !statements).unlogged)
          (fun _ h => h.log) rfl
          (within_writesAll .value _ children)).symm
      | _ => exact hparts excerpt.text statements w hw

end Log

end Node

namespace FlowGraph

/-- Some point is a write of the variable. -/
def Writes (g : FlowGraph) (name : String) : Prop :=
  ∃ p ∈ g.points, p.isWrite = true ∧ p.variableName = name

instance (g : FlowGraph) (name : String) : Decidable (g.Writes name) :=
  inferInstanceAs (Decidable (∃ p ∈ g.points, p.isWrite = true ∧ p.variableName = name))

theorem writes_withPoint {g : FlowGraph} {p : FlowPoint} {edges : List FlowEdge} {name : String} :
    (g.withPoint p edges).Writes name ↔
      g.Writes name ∨ p.isWrite = true ∧ p.variableName = name := by
  constructor
  · rintro ⟨q, hq, hwrite⟩
    rcases List.mem_append.1 hq with hq | hq
    · exact .inl ⟨q, hq, hwrite⟩
    · cases List.mem_singleton.1 hq
      exact .inr hwrite
  · rintro (⟨q, hq, hwrite⟩ | hwrite)
    · exact ⟨q, List.mem_append_left _ hq, hwrite⟩
    · exact ⟨_, List.mem_append_right _ (List.mem_singleton_self _), hwrite⟩

theorem writes_withPoint_of_read {g : FlowGraph} {p : FlowPoint} (hp : p.isWrite = false)
    {edges : List FlowEdge} {name : String} :
    (g.withPoint p edges).Writes name ↔ g.Writes name := by
  rw [writes_withPoint, hp]
  exact or_iff_left fun h => Bool.false_ne_true h.1

end FlowGraph

namespace FlowBuilder

/-- The builder gets from `b` to `b'` and adds writes of just these variables. -/
def Adds (b : FlowBuilder) (names : List String) (b' : FlowBuilder) : Prop :=
  ∀ name, b'.graph.Writes name ↔ b.graph.Writes name ∨ name ∈ names

variable {b b' b'' : FlowBuilder} {names names' : List String}

theorem adds_nil (b : FlowBuilder) : b.Adds [] b :=
  fun _ => (or_iff_left List.not_mem_nil).symm

theorem Adds.trans (h : b.Adds names b') (h' : b'.Adds names' b'') :
    b.Adds (names ++ names') b'' := by
  intro name
  rw [h' name, h name, List.mem_append, or_assoc]

theorem Adds.congr (h : b.Adds names b') (hnames : ∀ name, name ∈ names ↔ name ∈ names') :
    b.Adds names' b' :=
  fun name => (h name).trans (or_congr_right (hnames name))

theorem Adds.comm (h : b.Adds (names ++ names') b') : b.Adds (names' ++ names) b' :=
  h.congr fun name => by rw [List.mem_append, List.mem_append, or_comm]

theorem adds_read (b : FlowBuilder) (name : String) (span : Span) (statement : Text)
    (kind : FlowKind) : b.Adds [] (b.read name span statement kind).2 := by
  intro x
  rw [read_eq, FlowGraph.writes_withPoint_of_read rfl]
  exact b.adds_nil x

theorem adds_write (b : FlowBuilder) (name : String) (span : Span) (statement : Text)
    (kind : FlowKind) (sources : List Nat) (isDirect : Bool) :
    b.Adds [name] (b.write name span statement kind sources isDirect) := by
  intro x
  rw [write_eq, FlowGraph.writes_withPoint, List.mem_singleton]
  exact or_congr_right ⟨fun h => h.2.symm, fun h => ⟨rfl, h.symm⟩⟩

theorem adds_foldl {α : Type} {step : FlowBuilder → α → FlowBuilder} (written : α → List String)
    (hstep : ∀ (b : FlowBuilder) a, b.Adds (written a) (step b a)) (as : List α) (b : FlowBuilder) :
    b.Adds (as.flatMap written) (as.foldl step b) := by
  induction as generalizing b with
  | nil => exact b.adds_nil
  | cons a as ih => exact (hstep b a).trans (ih _)

theorem adds_names {step : FlowBuilder → String → FlowBuilder}
    (hstep : ∀ (b : FlowBuilder) name, b.Adds [name] (step b name)) (names : List String)
    (b : FlowBuilder) : b.Adds names (names.foldl step b) := by
  have hfold := adds_foldl (fun name => [name]) hstep names b
  rw [List.flatMap_singleton'] at hfold
  exact hfold

end FlowBuilder

namespace Node

section Flow
variable (statement : Text)

theorem adds_writeAll (span : Span) (isCompound isDirect : Bool) (sources : List Nat)
    (names : List String) (b : FlowBuilder) :
    b.Adds names (writeAll statement span isCompound isDirect sources names b) := by
  refine FlowBuilder.adds_names (fun b name => ?_) names b
  cases isCompound with
  | false => exact b.adds_write name span statement .direct sources isDirect
  | true =>
    exact (b.adds_read name span statement .direct).trans
      (FlowBuilder.adds_write _ name span statement .direct _ isDirect)

theorem adds_updateAll (operands : List Node) (b : FlowBuilder) :
    b.Adds (operands.flatMap writtenNames) (updateAll statement operands b) := by
  refine FlowBuilder.adds_foldl writtenNames (fun b operand => ?_) operands b
  refine FlowBuilder.adds_names (fun b name => ?_) operand.writtenNames b
  exact (b.adds_read name operand.span statement .direct).trans
    (FlowBuilder.adds_write _ name operand.span statement .direct _ false)

theorem adds_readsAll {kind : FlowKind} {written : Node → List String} {ns : List Node}
    (hns : ∀ c ∈ ns, ∀ b : FlowBuilder, b.Adds (written c) (reads statement kind c b).2)
    (b : FlowBuilder) : b.Adds (ns.flatMap written) (readsAll statement kind ns b).2 := by
  induction ns generalizing b with
  | nil => exact b.adds_nil
  | cons c cs ih =>
    rw [readsAll]
    exact (hns c List.mem_cons_self b).trans (ih (fun d hd => hns d (List.mem_cons_of_mem _ hd)) _)

/-- Where an assignment or update does not get through, the flow graph sees no write. -/
theorem names_flow_of_not_isTransparent {kind : NodeKind} (hkind : kind.isTransparent = false)
    (role : Role) (hrole : role ≠ .value) (w : Watch) (span : Span) (excerpt : Excerpt)
    (children : List Node) :
    WriteSite.names Watch.flow (writesAs role w ⟨kind, span, excerpt, children⟩) = [] := by
  rw [writesAs_of_not_isTransparent hkind]
  exact WriteSite.names_unwatched (fun _ h => h.flow) (w.flow_inside hrole)
    ((seen_within _).1 .value _)

/-- Of a group that is assigned or updated the flow graph sees the names in it. -/
theorem names_flow_group (role : Role) (hrole : role ≠ .value) {w : Watch} (hw : w.flow = true)
    (children : List Node) :
    WriteSite.names Watch.flow ((if role = .value then []
        else (writtenNamesIn children).map (⟨·, w.unlogged⟩)) ++
      writesWithin false (w.inside role) children) = writtenNamesIn children := by
  have hparts := WriteSite.names_unwatched (fun _ h => h.flow) (w.flow_inside hrole)
    (within_writesWithin false (w.inside role) children)
  rw [if_neg hrole, WriteSite.names_append, hparts, List.append_nil]
  exact WriteSite.names_map (w := w.unlogged) hw _

/-- What follows the object of an assigned or updated member is not read by the flow graph. -/
theorem names_flow_rest (role : Role) (hrole : role ≠ .value) (w : Watch) (rest : List Node) :
    WriteSite.names Watch.flow (writesAll .value (w.inside role).unlogged rest) = [] :=
  WriteSite.names_unwatched (w := (w.inside role).unlogged) (fun _ h => h.flow)
    (w.flow_inside hrole) (within_writesAll _ _ rest)

/-- Of an operand the flow graph sees its names. -/
theorem names_flow_operand (n : Node) {w : Watch} (hw : w.flow = true) :
    WriteSite.names Watch.flow (writesAs .operand w n) = n.writtenNames := by
  induction n with
  | node kind span excerpt children ih =>
    cases kind with
    | identifier name => exact WriteSite.names_map hw [name]
    | indexAccess =>
      cases children with
      | nil => rfl
      | cons base keys =>
        have hkeys : WriteSite.names Watch.flow (writesAll .value (w.keys .operand) keys) = [] :=
          WriteSite.names_unwatched (fun _ h => h.flow) (Bool.and_false _)
            (within_writesAll _ _ keys)
        rw [writesAs, WriteSite.names_append, hkeys, List.nil_append, writtenNames]
        exact ih base List.mem_cons_self
    | memberAccess member =>
      cases children with
      | nil => rfl
      | cons object rest =>
        rw [writesAs, WriteSite.names_append, names_flow_rest .operand (by decide), List.append_nil,
          writtenNames]
        exact ih object List.mem_cons_self
    | tuple | parenthesized => exact names_flow_group .operand (by decide) hw children
    | _ => exact names_flow_of_not_isTransparent rfl .operand (by decide) w span excerpt children

theorem writesAs_of_identifier? {n : Node} (h : n.identifier?.isSome = true) (w : Watch) :
    writesAs .value w n = [] := by
  rcases n with ⟨kind, span, excerpt, children⟩
  cases kind with
  | identifier name => rfl
  | _ => cases h

/-- From an expression the flow graph gets the writes that it is said to see: those in a value;
those in a target, once its names are written behind its keys; and those in a statement that stands
in an expression. -/
structure FlowSees (n : Node) : Prop where
  value : ∀ w : Watch, w.flow = true → ∀ (kind : FlowKind) (b : FlowBuilder),
    b.Adds (WriteSite.names Watch.flow (writesAs .value w n)) (reads statement kind n b).2
  target : ∀ w : Watch, w.flow = true → ∀ b b' : FlowBuilder,
    (targetKeys statement n b).2.Adds n.writtenNames b' →
    b.Adds (WriteSite.names Watch.flow (writesAs .target w n)) b'
  nested : n.isStatement = true → ∀ w : Watch, w.flow = true →
    ∀ (kind : FlowKind) (b : FlowBuilder),
    b.Adds (WriteSite.names Watch.flow (statementWrites false w n)) (reads statement kind n b).2

section Parts
variable {statement} {ns : List Node} (hns : ∀ c ∈ ns, FlowSees statement c) {w : Watch}
  (hw : w.flow = true) (kind : FlowKind) (b : FlowBuilder)
include hns hw

theorem FlowSees.all :
    b.Adds (WriteSite.names Watch.flow (writesAll .value w ns))
      (readsAll statement kind ns b).2 := by
  rw [writesAll_eq, WriteSite.names_flatMap]
  exact adds_readsAll statement (fun c hc => (hns c hc).value w hw kind) b

theorem FlowSees.within :
    b.Adds (WriteSite.names Watch.flow (writesWithin false w ns))
      (readsAll statement kind ns b).2 := by
  rw [writesWithin_eq, WriteSite.names_flatMap]
  refine adds_readsAll statement (fun c hc b => ?_) b
  split
  · rename_i hstatement
    exact (hns c hc).nested hstatement w hw kind b
  · exact (hns c hc).value w hw kind b

end Parts

section Forms
variable {statement} {nodeKind : NodeKind} {span : Span} {excerpt : Excerpt} {children : List Node}
  (ih : ∀ c ∈ children, FlowSees statement c) {w : Watch} (hw : w.flow = true)
include ih hw

theorem adds_value (kind : FlowKind) (b : FlowBuilder) :
    b.Adds (WriteSite.names Watch.flow (writesAs .value w ⟨nodeKind, span, excerpt, children⟩))
      (reads statement kind ⟨nodeKind, span, excerpt, children⟩ b).2 := by
  have hinside : (w.inside .value).flow = true := by
    rw [Watch.inside, hw]
    rfl
  cases nodeKind with
  | identifier name => exact b.adds_read name span statement kind
  | indexAccess =>
    cases children with
    | nil => exact b.adds_nil
    | cons base keys =>
      obtain ⟨ihbase, ihkeys⟩ := List.forall_mem_cons.1 ih
      have hbase := ihbase.value w hw kind b
      have hkeys := FlowSees.all ihkeys (w := w.keys .value) (by rw [Watch.keys, hw]; rfl) kind
        (reads statement kind base b).2
      rw [writesAs, WriteSite.names_append]
      exact (hbase.trans hkeys).comm
  | memberAccess member =>
    cases children with
    | nil => exact b.adds_nil
    | cons object rest =>
      obtain ⟨ihobject, ihrest⟩ := List.forall_mem_cons.1 ih
      have hobject := ihobject.value w hw kind b
      have hrest := FlowSees.all ihrest (w := (w.inside .value).unlogged) hinside kind
        (reads statement kind object b).2
      rw [writesAs, WriteSite.names_append]
      exact hobject.trans hrest
  | tuple | parenthesized => exact FlowSees.within ih hinside kind b
  | assignment operator =>
    cases children with
    | nil => exact b.adds_nil
    | cons target values =>
      obtain ⟨ihtarget, ihvalues⟩ := List.forall_mem_cons.1 ih
      have hvalues := FlowSees.all ihvalues hinside .direct b
      rw [writesAs, WriteSite.names_append]
      refine (hvalues.trans ?_).comm
      exact ihtarget.target _ hinside _ _ (adds_writeAll statement _ _ _ _ _ _)
  | update operator =>
    have hnames : WriteSite.names Watch.flow (writesAll .operand (w.inside .value) children) =
        children.flatMap writtenNames := by
      rw [writesAll_eq, WriteSite.names_flatMap]
      exact List.flatMap_congr fun c _ => c.names_flow_operand hinside
    rw [writesAs, hnames]
    exact adds_updateAll statement children b
  | call site =>
    cases children with
    | nil => exact b.adds_nil
    | cons callee arguments =>
      obtain ⟨ihcallee, iharguments⟩ := List.forall_mem_cons.1 ih
      have hcallee : b.Adds (WriteSite.names Watch.flow (writesAs .value (w.inside .value) callee))
          (if callee.identifier?.isSome then ([], b) else reads statement kind callee b).2 := by
        split
        · rename_i hname
          rw [writesAs_of_identifier? hname]
          exact b.adds_nil
        · exact ihcallee.value _ hinside kind b
      rw [writesAs, writesAll, WriteSite.names_append]
      exact hcallee.trans (FlowSees.all iharguments hinside kind _)
  | literal | elementaryType | creation => exact b.adds_nil
  | _ => exact FlowSees.within ih hinside kind b

theorem adds_target {b b' : FlowBuilder}
    (h : (targetKeys statement ⟨nodeKind, span, excerpt, children⟩ b).2.Adds
      (writtenNames ⟨nodeKind, span, excerpt, children⟩) b') :
    b.Adds (WriteSite.names Watch.flow (writesAs .target w ⟨nodeKind, span, excerpt, children⟩))
      b' := by
  cases nodeKind with
  | identifier name =>
    rw [writesAs, if_neg (by decide)]
    exact (WriteSite.names_map hw [name]).symm ▸ h
  | indexAccess =>
    cases children with
    | nil => exact h
    | cons base keys =>
      obtain ⟨ihbase, ihkeys⟩ := List.forall_mem_cons.1 ih
      have hkeys :=
        FlowSees.all ihkeys (w := w.keys .target) (by rw [Watch.keys, hw]; rfl) .direct b
      rw [writesAs, WriteSite.names_append]
      exact hkeys.trans (ihbase.target w hw _ b' h)
  | memberAccess member =>
    cases children with
    | nil => exact h
    | cons object rest =>
      rw [writesAs, WriteSite.names_append, names_flow_rest .target (by decide), List.append_nil]
      exact (ih object List.mem_cons_self).target w hw b b' h
  | tuple | parenthesized =>
    rw [writesAs, names_flow_group .target (by decide) hw]
    exact h
  | _ =>
    rw [names_flow_of_not_isTransparent rfl .target (by decide)]
    exact h

theorem adds_nested (hstatement : Node.isStatement ⟨nodeKind, span, excerpt, children⟩ = true)
    (kind : FlowKind) (b : FlowBuilder) :
    b.Adds
      (WriteSite.names Watch.flow (statementWrites false w ⟨nodeKind, span, excerpt, children⟩))
      (reads statement kind ⟨nodeKind, span, excerpt, children⟩ b).2 := by
  cases nodeKind with
  | declaration names =>
    -- out of place, a declaration is read like any form and declares nothing
    have hnames : WriteSite.names Watch.flow (names.map (⟨·, w.among false⟩)) = [] := by
      refine WriteSite.names_unseen fun s hs => ?_
      obtain ⟨name, -, rfl⟩ := List.mem_map.1 hs
      exact Bool.and_false _
    rw [statementWrites, WriteSite.names_append, hnames, List.nil_append]
    exact FlowSees.all ih hw kind b
  | assembly =>
    exact FlowSees.all ih (w := (w.among true).unlogged) ((Bool.and_true _).trans hw) kind b
  | block | uncheckedBlock | expressionStatement | ifStatement | forLoop | whileLoop | doWhileLoop
  | returnStatement | emit | revertStatement | tryStatement | catchClause | breakStatement
  | continueStatement => exact FlowSees.within ih hw kind b
  | _ => cases hstatement

end Forms

theorem flowSees (n : Node) : FlowSees statement n := by
  induction n with
  | node nodeKind span excerpt children ih =>
    exact ⟨fun _ hw => adds_value ih hw, fun _ hw _ _ => adds_target ih hw,
      fun hstatement _ hw => adds_nested ih hw hstatement⟩

section Statements
variable {w : Watch} (hw : w.flow = true) {ns : List Node}
  (hns : ∀ c ∈ ns, ∀ b : FlowBuilder,
    b.Adds (WriteSite.names Watch.flow (statementWrites true w c)) (flow c b))
include hw hns

theorem adds_guardedFlow (b : FlowBuilder) :
    b.Adds (WriteSite.names Watch.flow (writesWithin true w ns)) (guardedFlow statement ns b) := by
  induction ns generalizing b with
  | nil => exact b.adds_nil
  | cons c cs ih =>
    obtain ⟨hc, hcs⟩ := List.forall_mem_cons.1 hns
    rw [writesWithin, WriteSite.names_append, guardedFlow]
    split
    · exact (hc b).trans (ih hcs _)
    · split
      · exact ((flowSees statement c).value w hw .direct b).trans (ih hcs _)
      · refine FlowBuilder.Adds.trans ?_ (ih hcs _)
        exact (flowSees statement c).value w hw .conditional b

theorem adds_partFlow (b : FlowBuilder) :
    b.Adds (WriteSite.names Watch.flow (writesWithin true w ns)) (partFlow statement ns b) := by
  induction ns generalizing b with
  | nil => exact b.adds_nil
  | cons c cs ih =>
    obtain ⟨hc, hcs⟩ := List.forall_mem_cons.1 hns
    rw [writesWithin, WriteSite.names_append, partFlow]
    refine FlowBuilder.Adds.trans ?_ (ih hcs _)
    split
    · exact hc b
    · exact (flowSees statement c).value w hw .direct b

end Statements

end Flow

theorem adds_flow (n : Node) {w : Watch} (hw : w.flow = true) (b : FlowBuilder) :
    b.Adds (WriteSite.names Watch.flow (statementWrites true w n)) (flow n b) := by
  induction n generalizing b with
  | node kind span excerpt children ih =>
    have hreads : ∀ c ∈ children, FlowSees excerpt.text c := fun c _ => flowSees excerpt.text c
    cases kind with
    | declaration names =>
      have hvalues := FlowSees.all hreads hw .direct b
      have hnames : WriteSite.names Watch.flow (names.map (⟨·, w.among true⟩)) = names :=
        WriteSite.names_map ((Bool.and_true _).trans hw) names
      rw [statementWrites, WriteSite.names_append, hnames]
      refine (hvalues.trans (FlowBuilder.adds_names (fun b name => ?_) names _)).comm
      exact b.adds_write name span excerpt.text .declaration _ _
    | returnStatement => exact FlowSees.within hreads hw .returned b
    | ifStatement | whileLoop | forLoop | doWhileLoop =>
      exact adds_guardedFlow excerpt.text hw ih b
    | assembly =>
      have hnone : WriteSite.names Watch.flow (writesAll .value (w.among false).unlogged children) =
          [] :=
        WriteSite.names_unwatched (fun _ h => h.flow) (Bool.and_false _)
          (within_writesAll _ _ children)
      exact hnone.symm ▸ b.adds_nil
    | _ => exact adds_partFlow excerpt.text hw ih b

end Node

namespace VariableLog

/-- Some logged reference of the function writes the variable. -/
def Writes (log : VariableLog) (f : Function) (name : String) : Prop :=
  ∃ r ∈ log.referencesIn f, r.isWrite = true ∧ r.name = name

instance (log : VariableLog) (f : Function) (name : String) : Decidable (log.Writes f name) :=
  inferInstanceAs (Decidable (∃ r ∈ log.referencesIn f, r.isWrite = true ∧ r.name = name))

theorem referencesIn_track {log : VariableLog} {f : Function}
    (h : log.byFunction.lookup f.key = none) :
    (log.track f).referencesIn f = f.sightings.map Sighting.reference := by
  rw [referencesIn, track, h]
  simp [List.lookup_append, h]

end VariableLog

namespace Sample

/-- A public function of a one-letter name whose body is one expression. -/
private def functionOf (start : Nat) (e : ParseTree) : ParseTree :=
  form "function_definition" start (e.stop + 3)
    [token "function" start (start + 8), form "identifier" (start + 9) (start + 10),
      token "(" (start + 10) (start + 11), token ")" (start + 11) (start + 12),
      form "visibility" (start + 13) (start + 19) [token "public" (start + 13) (start + 19)],
      form "function_body" (start + 20) (e.stop + 3)
        [token "\x7b" (start + 20) (start + 21),
          form "statement" e.start (e.stop + 1)
            [form "expression_statement" e.start (e.stop + 1) [e, token ";" e.stop (e.stop + 1)]],
          token "\x7d" (e.stop + 2) (e.stop + 3)]]
    [("body", 5), ("name", 1)]

private def value (t : ParseTree) : ParseTree := form "expression" t.start t.stop [t]

private def letter (start : Nat) : ParseTree := value (form "identifier" start (start + 1))

private def pair (start : Nat) : ParseTree :=
  value (form "tuple_expression" start (start + 6)
    [token "(" start (start + 1), letter (start + 1), token "," (start + 2) (start + 3),
      letter (start + 4), token ")" (start + 5) (start + 6)])

private def assignment (target source : ParseTree) : ParseTree :=
  value (form "assignment_expression" target.start source.stop
    [target, token "=" (target.stop + 1) (target.stop + 2), source])

/-- One function swaps two variables through tuples, the other assigns to an element. -/
def swapping : SourceUnit where
  path := "C.sol"
  text := ("contract C \x7b function f() public \x7b (a, b) = (b, a); \x7d " ++
    "function g() public \x7b a[b] = c; \x7d \x7d").toList
  tree := form "source_file" 0 89 [form "contract_declaration" 0 89
    [token "contract" 0 8, form "identifier" 9 10,
      form "contract_body" 11 89
        [token "\x7b" 11 12, functionOf 13 (assignment (pair 35) (pair 44)),
          functionOf 54 (assignment
            (value (form "array_access" 76 80
              [letter 76, token "[" 77 78, letter 78, token "]" 79 80])) (letter 83)),
          token "\x7d" 88 89]]
    [("body", 2), ("name", 1)]]

/-- The functions that are read from the sample. -/
def swappingFunctions : List Function :=
  ((Lowered.ofTree (swapping.source 0) swapping.tree).contracts (swapping.source 0)).flatMap
    Contract.functions

end Sample

namespace Function

theorem written_sightings (f : Function) :
    Sighting.written f.sightings = WriteSite.names Watch.log f.writeSites := by
  have hparameters : Sighting.written (f.parameterNames.map fun name =>
      Sighting.make f.name name f.span f.source .parameter .read false) = [] := by
    induction f.parameterNames with
    | nil => rfl
    | cons name names ih => exact ih
  rw [sightings, Sighting.written_append, hparameters, List.nil_append, writeSites]
  cases f.body with
  | none => rfl
  | some body => exact (body.written_sightings f.name).2 true {} rfl

theorem writes_track {log : VariableLog} {f : Function} (h : log.byFunction.lookup f.key = none)
    (name : String) :
    (log.track f).Writes f name ↔ ∃ s ∈ f.writeSites, s.seen.log = true ∧ s.name = name := by
  rw [VariableLog.Writes, VariableLog.referencesIn_track h, ← WriteSite.mem_names,
    ← written_sightings]
  simp only [Sighting.written, List.mem_map, List.mem_filter, exists_exists_and_eq_and, and_assoc]

theorem adds_parameterFlow (f : Function) : FlowBuilder.Adds {} [] f.parameterFlow := by
  refine (FlowBuilder.adds_foldl (fun _ => []) (fun b name x => ?_) f.parameterNames {}).congr
    fun x => by rw [List.flatMap_eq_nil_iff.2 fun _ _ => rfl]
  let p : FlowPoint :=
    { variableName := name, isRead := true, isWrite := false, kind := .parameter, span := f.span,
      statement := f.source }
  have hpoint : (b.graph.withPoint p []).Writes x ↔ b.graph.Writes x :=
    FlowGraph.writes_withPoint_of_read rfl
  exact hpoint.trans (b.adds_nil x)

theorem writes_flowGraph (f : Function) (name : String) :
    f.flowGraph.Writes name ↔ ∃ s ∈ f.writeSites, s.seen.flow = true ∧ s.name = name := by
  have hempty : ¬ FlowGraph.Writes {} name := fun h => by
    obtain ⟨p, hp, -⟩ := h
    cases hp
  have hparameters := (f.adds_parameterFlow name).trans (or_iff_right hempty)
  rw [← WriteSite.mem_names, writeSites, flowGraph]
  cases f.body with
  | none => exact hparameters
  | some body =>
    refine ((body.adds_flow (w := {}) rfl f.parameterFlow) name).trans (or_iff_right fun h => ?_)
    cases hparameters.1 h

/-- The log of references and the flow graph each take for written what is written where they look.
So they agree on a function, whatever else is logged, if and only if each variable with a write that
one of them sees has a write that the other sees. -/
theorem written_agree_iff (f : Function) {log : VariableLog}
    (h : log.byFunction.lookup f.key = none) :
    (∀ name, (log.track f).Writes f name ↔ ∃ s ∈ f.writeSites, s.seen.log = true ∧ s.name = name) ∧
    (∀ name, f.flowGraph.Writes name ↔ ∃ s ∈ f.writeSites, s.seen.flow = true ∧ s.name = name) ∧
    ((∀ name, (log.track f).Writes f name ↔ f.flowGraph.Writes name) ↔
      ∀ s ∈ f.writeSites,
        (s.seen.log = true → ∃ t ∈ f.writeSites, t.seen.flow = true ∧ t.name = s.name) ∧
        (s.seen.flow = true → ∃ t ∈ f.writeSites, t.seen.log = true ∧ t.name = s.name)) := by
  refine ⟨writes_track h, f.writes_flowGraph, ?_⟩
  simp only [writes_track h, f.writes_flowGraph]
  constructor
  · intro hagree s hs
    exact ⟨fun hlog => (hagree s.name).1 ⟨s, hs, hlog, rfl⟩,
      fun hflow => (hagree s.name).2 ⟨s, hs, hflow, rfl⟩⟩
  · intro hsites name
    constructor
    · rintro ⟨s, hs, hlog, rfl⟩
      exact (hsites s hs).1 hlog
    · rintro ⟨s, hs, hflow, rfl⟩
      exact (hsites s hs).2 hflow

/-- In the sample they agree on the function that assigns to an element. -/
theorem written_agree_iff_sample :
    ∃ f ∈ Sample.swappingFunctions, ({} : VariableLog).byFunction.lookup f.key = none ∧
      f.flowGraph.Writes "a" ∧
        ∀ name, (({} : VariableLog).track f).Writes f name ↔ f.flowGraph.Writes name := by
  obtain ⟨f, hf, hwrites, hsites⟩ : ∃ f ∈ Sample.swappingFunctions, f.flowGraph.Writes "a" ∧
      ∀ s ∈ f.writeSites,
        (s.seen.log = true → ∃ t ∈ f.writeSites, t.seen.flow = true ∧ t.name = s.name) ∧
        (s.seen.flow = true → ∃ t ∈ f.writeSites, t.seen.log = true ∧ t.name = s.name) := by
    decide +kernel
  exact ⟨f, hf, rfl, hwrites, (written_agree_iff f rfl).2.2.2 hsites⟩

/-- They do not on the function that swaps two variables: the log takes both for read only. -/
theorem swap_written_in_flow_only :
    Sample.swapping.tree.hasFault = false ∧
      ∃ f ∈ Sample.swappingFunctions, f.flowGraph.Writes "a" ∧ f.flowGraph.Writes "b" ∧
        ∀ r ∈ (({} : VariableLog).track f).referencesIn f, r.isWrite = false := by
  decide +kernel

end Function

end ContractAtlas
