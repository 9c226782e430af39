import ContractAtlas.Flow.Builder
import ContractAtlas.Proofs.Program.Walk
import ContractAtlas.Variable.Log

/-! Where a body writes variables, and which of the two analyses of variables sees each write. -/
namespace ContractAtlas

/-- Which analyses look at a place: the log of references, the flow graph. -/
structure Watch where
  log : Bool := true
  flow : Bool := true
deriving DecidableEq

/-- A variable that is written, and who sees that. -/
structure WriteSite where
  name : String
  seen : Watch
deriving DecidableEq

/-- What an expression is to the form it stands in. -/
inductive Role
  | value
  | target
  | operand
deriving DecidableEq

namespace Watch

/-- What is watched inside an expression in this role. The flow graph takes an assigned or updated
expression as a whole. -/
def inside (w : Watch) (role : Role) : Watch := { w with flow := w.flow && role == .value }

/-- What is watched in the keys of an index. The flow graph looks into those of an assigned element,
not into those of an updated one. -/
def keys (w : Watch) (role : Role) : Watch := { w with flow := w.flow && role != .operand }

/-- The log does not look any further. -/
def unlogged (w : Watch) : Watch := { w with log := false }

/-- The flow graph takes a statement for one only among statements. -/
def among (w : Watch) (statements : Bool) : Watch := { w with flow := w.flow && statements }

/-- Whoever watches the first place watches the second. -/
structure Within (v w : Watch) : Prop where
  log : v.log = true → w.log = true
  flow : v.flow = true → w.flow = true

variable {u v w : Watch}

theorem Within.refl (w : Watch) : w.Within w := ⟨id, id⟩

theorem Within.trans (h : u.Within v) (h' : v.Within w) : u.Within w :=
  ⟨h'.log ∘ h.log, h'.flow ∘ h.flow⟩

theorem within_inside (w : Watch) (role : Role) : (w.inside role).Within w :=
  ⟨id, fun h => (Bool.and_eq_true_iff.1 h).1⟩

theorem inside_inside (w : Watch) (role : Role) :
    (w.inside role).inside .value = w.inside role := by
  rw [inside, inside]
  exact congrArg (Watch.mk w.log) (Bool.and_true _)

theorem within_keys (w : Watch) (role : Role) : (w.keys role).Within w :=
  ⟨id, fun h => (Bool.and_eq_true_iff.1 h).1⟩

theorem flow_inside {role : Role} (hrole : role ≠ .value) (w : Watch) :
    (w.inside role).flow = false := by
  rw [inside, beq_eq_false_iff_ne.2 hrole, Bool.and_false]

theorem within_unlogged (w : Watch) : w.unlogged.Within w := ⟨nofun, id⟩

theorem within_among (w : Watch) (statements : Bool) : (w.among statements).Within w :=
  ⟨id, fun h => (Bool.and_eq_true_iff.1 h).1⟩

end Watch

namespace Node

mutual

/-- The writes in an expression. To be assigned or updated reaches the root of a chain of indexes
and members, and the parts of a group; the log takes those parts for values. -/
def writesAs (role : Role) (w : Watch) : Node → List WriteSite
  | ⟨kind, _, _, children⟩ =>
    match kind with
    | .identifier name => if role = .value then [] else [⟨name, w⟩]
    | .indexAccess =>
      match children with
      | [] => []
      | base :: keys => writesAll .value (w.keys role) keys ++ writesAs role w base
    | .memberAccess _ =>
      match children with
      | [] => []
      | object :: rest => writesAs role w object ++ writesAll .value (w.inside role).unlogged rest
    | .tuple | .parenthesized =>
      (if role = .value then [] else (writtenNamesIn children).map (⟨·, w.unlogged⟩)) ++
        writesWithin false (w.inside role) children
    | .assignment _ =>
      match children with
      | [] => []
      | target :: values =>
        writesAs .target (w.inside role) target ++ writesAll .value (w.inside role) values
    | .update _ => writesAll .operand (w.inside role) children
    | .call _ => writesAll .value (w.inside role) children
    | .literal _ | .elementaryType _ | .creation _ => []
    | _ => writesWithin false (w.inside role) children

def writesAll (role : Role) (w : Watch) : List Node → List WriteSite
  | [] => []
  | n :: ns => writesAs role w n ++ writesAll role w ns

/-- The writes in a statement, which stands among statements or in an expression. Nobody looks into
assembly that stands among statements. -/
def statementWrites (statements : Bool) (w : Watch) : Node → List WriteSite
  | ⟨kind, _, _, children⟩ =>
    match kind with
    | .declaration names => names.map (⟨·, w.among statements⟩) ++ writesAll .value w children
    | .returnStatement => writesWithin false w children
    | .assembly => writesAll .value (w.among !statements).unlogged children
    | _ => writesWithin statements w children

/-- The writes in the parts of a form. -/
def writesWithin (statements : Bool) (w : Watch) : List Node → List WriteSite
  | [] => []
  | n :: ns =>
    (if n.isStatement then statementWrites statements w n else writesAs .value w n) ++
      writesWithin statements w ns

end

end Node

namespace Function

/-- The writes in the body of a function. -/
def writeSites (f : Function) : List WriteSite :=
  (f.body.map (Node.statementWrites true {})).getD []

end Function

namespace Node

theorem writesAll_eq (role : Role) (w : Watch) (ns : List Node) :
    writesAll role w ns = ns.flatMap (writesAs role w) := by
  induction ns with
  | nil => rfl
  | cons n ns ih => rw [writesAll, ih, List.flatMap_cons]

theorem writesWithin_eq (statements : Bool) (w : Watch) (ns : List Node) :
    writesWithin statements w ns = ns.flatMap fun n =>
      if n.isStatement then statementWrites statements w n else writesAs .value w n := by
  induction ns with
  | nil => rfl
  | cons n ns ih => rw [writesWithin, ih, List.flatMap_cons]

/-- Nobody sees a write without watching the place of the expression or statement. -/
theorem seen_within (n : Node) :
    (∀ role w, ∀ s ∈ writesAs role w n, s.seen.Within w) ∧
      ∀ statements w, ∀ s ∈ statementWrites statements w n, s.seen.Within w := by
  induction n with
  | node kind span excerpt children ih =>
    have hall : ∀ ns, ns ⊆ children → ∀ role v w, v.Within w → ∀ s ∈ writesAll role v ns,
        s.seen.Within w := by
      intro ns hns role v w hv s hs
      rw [writesAll_eq] at hs
      obtain ⟨c, hc, hs⟩ := List.mem_flatMap.1 hs
      exact ((ih c (hns hc)).1 role v s hs).trans hv
    have hparts : ∀ statements v w, v.Within w → ∀ s ∈ writesWithin statements v children,
        s.seen.Within w := by
      intro statements v w hv s hs
      rw [writesWithin_eq] at hs
      obtain ⟨c, hc, hs⟩ := List.mem_flatMap.1 hs
      split at hs
      · exact ((ih c hc).2 statements v s hs).trans hv
      · exact ((ih c hc).1 .value v s hs).trans hv
    have hnames : ∀ (names : List String) v w, v.Within w → ∀ s ∈ names.map (WriteSite.mk · v),
        s.seen.Within w := by
      intro names v w hv s hs
      obtain ⟨name, -, rfl⟩ := List.mem_map.1 hs
      exact hv
    constructor
    · intro role w s hs
      have hinside := w.within_inside role
      cases kind with
      | identifier name =>
        rw [writesAs] at hs
        split at hs
        · cases hs
        · cases List.mem_singleton.1 hs
          exact .refl w
      | indexAccess =>
        cases children with
        | nil => cases hs
        | cons base keys =>
          rcases List.mem_append.1 hs with hs | hs
          · exact hall keys (List.subset_cons_self base keys) .value _ w (w.within_keys role) s hs
          · exact (ih base List.mem_cons_self).1 role w s hs
      | memberAccess member =>
        cases children with
        | nil => cases hs
        | cons object rest =>
          rcases List.mem_append.1 hs with hs | hs
          · exact (ih object List.mem_cons_self).1 role w s hs
          · exact hall rest (List.subset_cons_self object rest) .value _ w
              ((Watch.within_unlogged _).trans hinside) s hs
      | tuple | parenthesized =>
        rcases List.mem_append.1 hs with hs | hs
        · split at hs
          · cases hs
          · exact hnames _ _ w w.within_unlogged s hs
        · exact hparts false _ w hinside s hs
      | assignment operator =>
        cases children with
        | nil => cases hs
        | cons target values =>
          rcases List.mem_append.1 hs with hs | hs
          · exact ((ih target List.mem_cons_self).1 .target _ s hs).trans hinside
          · exact hall values (List.subset_cons_self target values) .value _ w hinside s hs
      | update operator => exact hall children (List.Subset.refl _) .operand _ w hinside s hs
      | call site => exact hall children (List.Subset.refl _) .value _ w hinside s hs
      | literal | elementaryType | creation => cases hs
      | _ => exact hparts false _ w hinside s hs
    · intro statements w s hs
      cases kind with
      | declaration names =>
        rcases List.mem_append.1 hs with hs | hs
        · exact hnames names _ w (w.within_among statements) s hs
        · exact hall children (List.Subset.refl _) .value w w (.refl w) s hs
      | returnStatement => exact hparts false w w (.refl w) s hs
      | assembly =>
        exact hall children (List.Subset.refl _) .value _ w
          ((Watch.within_unlogged _).trans (w.within_among _)) s hs
      | _ => exact hparts statements w w (.refl w) s hs

end Node

/-- An assignment or update gets through forms of this kind to the variables that it writes. -/
def NodeKind.isTransparent : NodeKind → Bool
  | .identifier _ | .indexAccess | .memberAccess _ | .tuple | .parenthesized => true
  | _ => false

/-- What stands in the place of a target and is none is a value that the flow graph does not look
at. -/
theorem Node.writesAs_of_not_isTransparent {kind : NodeKind} (hkind : kind.isTransparent = false)
    (role : Role) (w : Watch) (span : Span) (excerpt : Excerpt) (children : List Node) :
    Node.writesAs role w ⟨kind, span, excerpt, children⟩ =
      Node.writesAs .value (w.inside role) ⟨kind, span, excerpt, children⟩ := by
  have hinside := w.inside_inside role
  cases kind with
  | assignment operator =>
    cases children with
    | nil => rfl
    | cons target values => rw [Node.writesAs, Node.writesAs, hinside]
  | update | call => rw [Node.writesAs, Node.writesAs, hinside]
  | literal | elementaryType | creation => rfl
  | identifier | indexAccess | memberAccess | tuple | parenthesized => cases hkind
  | _ => simp only [Node.writesAs, hinside]

theorem Node.within_writesAll (role : Role) (w : Watch) (ns : List Node) :
    ∀ s ∈ Node.writesAll role w ns, s.seen.Within w := by
  intro s hs
  rw [Node.writesAll_eq] at hs
  obtain ⟨c, -, hs⟩ := List.mem_flatMap.1 hs
  exact c.seen_within.1 role w s hs

theorem Node.within_writesWithin (statements : Bool) (w : Watch) (ns : List Node) :
    ∀ s ∈ Node.writesWithin statements w ns, s.seen.Within w := by
  intro s hs
  rw [Node.writesWithin_eq] at hs
  obtain ⟨c, -, hs⟩ := List.mem_flatMap.1 hs
  split at hs
  · exact c.seen_within.2 statements w s hs
  · exact c.seen_within.1 .value w s hs

namespace WriteSite

/-- The names of the writes that one of the analyses sees. -/
def names (sees : Watch → Bool) (sites : List WriteSite) : List String :=
  (sites.filter fun s => sees s.seen).map WriteSite.name

variable {sees : Watch → Bool} {sites : List WriteSite}

theorem mem_names {name : String} :
    name ∈ names sees sites ↔ ∃ s ∈ sites, sees s.seen = true ∧ s.name = name := by
  simp only [names, List.mem_map, List.mem_filter, and_assoc]

@[simp] theorem names_append (sites' : List WriteSite) :
    names sees (sites ++ sites') = names sees sites ++ names sees sites' := by
  rw [names, List.filter_append, List.map_append]
  rfl

theorem names_flatMap {α : Type} (f : α → List WriteSite) (as : List α) :
    names sees (as.flatMap f) = as.flatMap fun a => names sees (f a) := by
  induction as with
  | nil => rfl
  | cons a as ih => rw [List.flatMap_cons, names_append, ih, List.flatMap_cons]

theorem names_unseen (h : ∀ s ∈ sites, sees s.seen = false) : names sees sites = [] := by
  rw [names, List.filter_eq_nil_iff.2 fun s hs => by rw [h s hs]; exact Bool.false_ne_true]
  rfl

/-- Nothing is seen below a place that is not watched. -/
theorem names_unwatched {w : Watch} (hsees : ∀ v, v.Within w → sees v = true → sees w = true)
    (hw : sees w = false) (h : ∀ s ∈ sites, s.seen.Within w) : names sees sites = [] := by
  refine names_unseen fun s hs => Bool.eq_false_iff.2 fun hseen => ?_
  rw [hsees s.seen (h s hs) hseen] at hw
  cases hw

theorem names_map {w : Watch} (h : sees w = true) (ns : List String) :
    names sees (ns.map (⟨·, w⟩)) = ns := by
  induction ns with
  | nil => rfl
  | cons name ns ih =>
    rw [List.map_cons, names, List.filter_cons_of_pos (by exact h), List.map_cons]
    exact congrArg (name :: ·) ih

end WriteSite

end ContractAtlas
