import ContractAtlas.Call.Deep
import ContractAtlas.Proofs.Program.Paths

/-! The graph of calls by name: what a body calls, told by places in its tree, and the functions
that the called names stand for. -/
namespace ContractAtlas

namespace Node
variable {body : Node}

/-- An emitted event stands at this place: it is the first child of the emit statement. -/
def IsEventAt (body : Node) (place : List Nat) : Prop :=
  ∃ front statement event, place = front ++ [0] ∧ body.nodeAt? front = some statement ∧
    statement.kind = .emit event

/-- Somewhere in the body stands a call of this name that is not an emitted event. -/
def Calls (body : Node) (name : String) : Prop :=
  ∃ place call site, body.nodeAt? place = some call ∧ call.kind = .call site ∧
    site.callee.name? = some name ∧ ¬ body.IsEventAt place

private theorem emitStatement?_eq_none_iff {v : Visit} {parent : Node}
    (h : v.ancestors.getLast? = some parent) :
    v.emitStatement? = none ↔ ¬ (v.index = 0 ∧ ∃ event, parent.kind = .emit event) := by
  rw [Visit.emitStatement?, h]
  cases hk : parent.kind <;> simp [hk]

/-- What a walk takes for an emitted event is one by its place. -/
theorem Meets.emitStatement?_eq_none_iff {place : List Nat} {v : Visit}
    (h : body.Meets [] 0 place v) : v.emitStatement? = none ↔ ¬ body.IsEventAt place := by
  rcases List.eq_nil_or_concat' place with rfl | ⟨front, j, rfl⟩
  · have hroot : v.ancestors = [] := List.map_eq_nil_iff.1 h.ancestors
    refine iff_of_true (by rw [Visit.emitStatement?, hroot]; rfl) ?_
    rintro ⟨front, _, _, he, -⟩
    exact List.append_ne_nil_of_right_ne_nil front (List.cons_ne_nil 0 []) he.symm
  · have hparent := h.getLast?_ancestors
    have hnode := h.node
    rw [nodeAt?_concat] at hnode
    obtain ⟨parent, hat, -⟩ := Option.bind_eq_some_iff.1 hnode
    have hindex : v.index = j := by rw [h.index, List.getLast?_concat, Option.getD_some]
    rw [Node.emitStatement?_eq_none_iff (hparent.trans hat), hindex, not_iff_not]
    constructor
    · rintro ⟨rfl, event, hk⟩
      exact ⟨front, parent, event, rfl, hat, hk⟩
    · rintro ⟨front', statement, event, he, hat', hk⟩
      obtain ⟨rfl, hj⟩ := List.append_inj' he rfl
      cases hat.symm.trans hat'
      exact ⟨List.singleton_inj.1 hj, event, hk⟩

theorem mem_calledNames_iff {name : String} : name ∈ body.calledNames ↔ body.Calls name := by
  have hsite : ∀ n : Node, (n.callSite?.bind fun site => site.callee.name?) = some name ↔
      ∃ site, n.kind = .call site ∧ site.callee.name? = some name := by
    intro n
    rw [callSite?]
    cases n.kind <;> simp
  have hcalls : name ∈ body.calledNames ↔ ∃ v ∈ body.walk, v.emitStatement? = none ∧
      ∃ site, v.node.kind = .call site ∧ site.callee.name? = some name := by
    simp only [calledNames, directCalls, List.mem_filterMap, List.mem_map, List.mem_filter,
      Bool.and_eq_true, Option.isNone_iff_eq_none, hsite]
    constructor
    · rintro ⟨_, ⟨v, ⟨hv, -, hemit⟩, rfl⟩, hname⟩
      exact ⟨v, hv, hemit, hname⟩
    · rintro ⟨v, hv, hemit, site, hk, hname⟩
      exact ⟨v.node, ⟨v, ⟨hv, by rw [isCall, callSite?, hk]; rfl, hemit⟩, rfl⟩, site, hk, hname⟩
  rw [hcalls]
  constructor
  · rintro ⟨v, hv, hemit, site, hk, hname⟩
    obtain ⟨place, hmeets⟩ := exists_meets_of_mem_walk hv
    exact ⟨place, v.node, site, hmeets.node, hk, hname, hmeets.emitStatement?_eq_none_iff.1 hemit⟩
  · rintro ⟨place, call, site, hat, hk, hname, hevent⟩
    obtain ⟨v, hv, rfl, hmeets⟩ := exists_mem_walk hat
    exact ⟨v, hv, hmeets.emitStatement?_eq_none_iff.2 hevent, site, hk, hname⟩

end Node

namespace Function
variable {all : List Function} {start f g : Function} {name : String}

/-- The body of the function, if it has one, calls this name. -/
def Calls (f : Function) (name : String) : Prop := ∃ body, f.body = some body ∧ body.Calls name

theorem mem_calledNames_iff : name ∈ f.calledNames ↔ f.Calls name := by
  rw [calledNames, Calls]
  cases f.body with
  | none => simp
  | some body => simp [Node.mem_calledNames_iff]

theorem mem_callees_iff :
    g ∈ f.callees all ↔ f.Calls g.name ∧ all.find? (·.name == g.name) = some g := by
  rw [callees, List.mem_filterMap]
  constructor
  · rintro ⟨name, hname, hg⟩
    have he : g.name = name := by simpa using List.find?_some hg
    subst he
    exact ⟨mem_calledNames_iff.1 hname, hg⟩
  · rintro ⟨hcalls, hg⟩
    exact ⟨g.name, mem_calledNames_iff.2 hcalls, hg⟩

/-- Of the functions of a called name the first one is found. -/
theorem exists_callee_iff : (∃ g ∈ f.callees all, g.name = name) ↔
    f.Calls name ∧ ∃ g ∈ all, g.name = name := by
  constructor
  · rintro ⟨g, hg, rfl⟩
    obtain ⟨hcalls, hfirst⟩ := mem_callees_iff.1 hg
    exact ⟨hcalls, g, List.mem_of_find?_eq_some hfirst, rfl⟩
  · rintro ⟨hcalls, g, hg, rfl⟩
    have hfound : (all.find? (·.name == g.name)).isSome :=
      List.find?_isSome.2 ⟨g, hg, beq_self_eq_true _⟩
    obtain ⟨first, hfirst⟩ := Option.isSome_iff_exists.1 hfound
    have he : first.name = g.name := by simpa using List.find?_some hfirst
    exact ⟨first, mem_callees_iff.2 ⟨he ▸ hcalls, he ▸ hfirst⟩, he⟩

/-- What a name stands for on the way from `start`: the name of `start` for `start` itself, any
other name for the first function so named. -/
def standsFor? (all : List Function) (start : Function) (name : String) : Option Function :=
  if name = start.name then some start else all.find? (·.name == name)

/-- On the way from `start`, the function that stands for the first name calls the second. -/
def Leads (all : List Function) (start : Function) (caller called : String) : Prop :=
  ∃ f, standsFor? all start caller = some f ∧ f.Calls called

@[simp] theorem standsFor?_self : standsFor? all start start.name = some start := if_pos rfl

theorem standsFor?_of_ne (h : name ≠ start.name) :
    standsFor? all start name = all.find? (·.name == name) := if_neg h

end Function

end ContractAtlas
