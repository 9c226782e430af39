import ContractAtlas.Call.Scope
import ContractAtlas.Proofs.Program.Ancestors

/-! Names of functions in the scope of a contract. A name stands for the nearest function that bears
it: one of the contract itself, or else one of an ancestor that no other ancestor with such a
function is nearer than. -/
namespace ContractAtlas

namespace Program
variable {p : Program}

/-- The first function of a name in the contract under a number. -/
def functionIn? (p : Program) (id : Nat) (name : String) : Option Function :=
  (p.contract? id).bind fun c => c.function? name

theorem ancestors_of_none {id : Nat} (h : p.contract? id = none) : p.ancestors id = [] := by
  have hbases : p.baseIds id = [] := by rw [baseIds, h]
  rw [ancestors_eq_levels]
  cases p.contracts.length with
  | zero => rfl
  | succ steps => rw [Reach.levels, List.flatMap_singleton, hbases, Reach.fresh]

/-- Inheritance leads from a contract to itself and to its ancestors. -/
theorem reflTransGen_inherits_iff (hp : p.Built) {i j : Nat} :
    Relation.ReflTransGen p.Inherits i j ↔ j = i ∨ j ∈ p.ancestors i := by
  rw [Relation.reflTransGen_iff_eq_or_transGen, mem_ancestors_iff_inherits hp]
  constructor
  · rintro (he | hpath)
    · exact .inl he
    · exact (Decidable.em (j = i)).imp_right fun hne => ⟨hne, hpath⟩
  · exact fun h => h.imp_right And.right

/-- An ancestor that is nearer than another one is listed before it. -/
theorem mem_of_distance_lt (hp : p.Built) {id j k : Nat} {before after : List Nat}
    (hlisted : p.ancestors id = before ++ j :: after) (hk : k ∈ p.ancestors id)
    (hnear : Reach.distance p.Inherits id k < Reach.distance p.Inherits id j) : k ∈ before := by
  have hordered := pairwise_ancestors hp id
  rw [hlisted] at hk hordered
  rcases List.mem_append.1 hk with hk | hk
  · exact hk
  · rcases List.mem_cons.1 hk with rfl | hk
    · exact absurd hnear (Nat.lt_irrefl _)
    · have hbehind := (List.pairwise_cons.1 (List.pairwise_append.1 hordered).2.1).1 k hk
      omega

end Program

namespace Scope

theorem lookup_visibilitiesOf (fs : List Function) (name : String) :
    (visibilitiesOf fs).lookup name = (fs.find? (·.name == name)).map Function.visibility := by
  induction fs with
  | nil => rfl
  | cons f fs ih =>
    rw [visibilitiesOf, List.map_cons, List.lookup_cons, List.find?_cons, Bool.beq_comm]
    cases f.name == name with
    | true => rfl
    | false => exact ih

variable (p : Program) (id : Nat) (name : String)

/-- The visibility of a name is that of the function that is found first, in the contract itself and
then in its ancestors as they are listed. -/
theorem visibilityOf_ofContract :
    (ofContract p id).visibilityOf name =
      ((p.functionIn? id name).or
        ((p.ancestors id).findSome? fun j => p.functionIn? j name)).map Function.visibility := by
  rw [visibilityOf, ofContract, Program.functionIn?]
  cases hc : p.contract? id with
  | none =>
    rw [Program.ancestors_of_none hc]
    rfl
  | some c =>
    have hinherited : (((p.ancestors id).filterMap p.contract?).flatMap Contract.functions).find?
        (·.name == name) = (p.ancestors id).findSome? fun j => p.functionIn? j name := by
      rw [List.find?_flatMap]
      induction p.ancestors id with
      | nil => rfl
      | cons j js ih =>
        rw [List.filterMap_cons, List.findSome?_cons, Program.functionIn?]
        cases p.contract? j with
        | none => exact ih
        | some b =>
          rw [Option.bind_some, ← ih, List.findSome?_cons]
          rfl
    change (visibilitiesOf c.functions ++ visibilitiesOf (((p.ancestors id).filterMap
      p.contract?).flatMap Contract.functions)).lookup name = _
    rw [List.lookup_append, lookup_visibilitiesOf, lookup_visibilitiesOf, hinherited, Option.map_or]
    rfl

/-- The sets of names and the table of visibilities are filled from the same functions. -/
theorem knowsFunction_ofContract :
    (ofContract p id).knowsFunction name = ((ofContract p id).visibilityOf name).isSome := by
  have hnames : ∀ fs : List Function,
      (NameSet.ofList (fs.map Function.name)).contains name =
        ((visibilitiesOf fs).lookup name).isSome := by
    intro fs
    rw [NameSet.contains_ofList, lookup_visibilitiesOf, Option.isSome_map, Bool.eq_iff_iff,
      List.contains_iff_mem, List.find?_isSome, List.mem_map]
    simp only [beq_iff_eq]
  rw [knowsFunction, visibilityOf, ofContract]
  cases p.contract? id with
  | none => rfl
  | some c =>
    simp only [assemble, hnames, List.lookup_append, Option.isSome_or]

end Scope

namespace Program

/-- In the scope of a contract a name is that of a known function exactly when it has a visibility,
and exactly when the contract or one of its ancestors has such a function. The visibility is that of
the contract's own first function of the name or, if it has none, that of the first one in an
ancestor, than which no nearer ancestor has any. -/
theorem visibilityOf_nearest {p : Program} (hp : p.Built) (id : Nat) (name : String) :
    let s := Scope.ofContract p id
    (s.knowsFunction name = true ↔ ∃ v, s.visibilityOf name = some v) ∧
      (s.knowsFunction name = true ↔
        ∃ j f, Relation.ReflTransGen p.Inherits id j ∧ p.functionIn? j name = some f) ∧
      ∀ v, s.visibilityOf name = some v →
        (∃ f, p.functionIn? id name = some f ∧ f.visibility = v) ∨
        p.functionIn? id name = none ∧ ∃ j f, j ≠ id ∧ Relation.TransGen p.Inherits id j ∧
          p.functionIn? j name = some f ∧ f.visibility = v ∧
          ∀ k, k ≠ id → Relation.TransGen p.Inherits id k →
            Reach.distance p.Inherits id k < Reach.distance p.Inherits id j →
            p.functionIn? k name = none := by
  intro s
  refine ⟨?_, ?_, fun v hv => ?_⟩
  · rw [Scope.knowsFunction_ofContract, Option.isSome_iff_exists]
  · rw [Scope.knowsFunction_ofContract, Scope.visibilityOf_ofContract, Option.isSome_map,
      Option.isSome_or, Bool.or_eq_true, List.findSome?_isSome_iff]
    simp only [Option.isSome_iff_exists, reflTransGen_inherits_iff hp]
    constructor
    · rintro (⟨f, hf⟩ | ⟨j, hj, f, hf⟩)
      · exact ⟨id, f, .inl rfl, hf⟩
      · exact ⟨j, f, .inr hj, hf⟩
    · rintro ⟨j, f, rfl | hj, hf⟩
      · exact .inl ⟨f, hf⟩
      · exact .inr ⟨j, hj, f, hf⟩
  · rw [Scope.visibilityOf_ofContract, Option.map_eq_some_iff] at hv
    obtain ⟨f, hf, rfl⟩ := hv
    rcases Option.or_eq_some_iff.1 hf with hown | ⟨hown, hf⟩
    · exact .inl ⟨f, hown, rfl⟩
    · obtain ⟨before, j, after, hlisted, hj, hbefore⟩ := List.findSome?_eq_some_iff.1 hf
      have hmem : j ∈ p.ancestors id := by
        rw [hlisted]
        exact List.mem_append_right _ List.mem_cons_self
      obtain ⟨hne, hpath⟩ := (mem_ancestors_iff_inherits hp).1 hmem
      refine .inr ⟨hown, j, f, hne, hpath, hj, rfl, fun k hk hkpath hnear => ?_⟩
      have hlist := (mem_ancestors_iff_inherits hp).2 ⟨hk, hkpath⟩
      exact hbefore k (mem_of_distance_lt hp hlisted hlist hnear)

end Program

namespace Sample

/-- `D` inherits from `A` by way of `B` and `C`. Both `A` and `C` declare `f`, and `C` twice. -/
def overriding : Program :=
  let f (visibility : Visibility) : Function := { name := "f", visibility }
  let a : Contract := { name := "A", functions := [f .externally] }
  let b : Contract := { name := "B", bases := ["A"] }
  let c : Contract := { name := "C", bases := ["A"], functions := [f .publicly, f .privately] }
  let d : Contract := { name := "D", bases := ["B", "C"] }
  [a, b, c, d].foldl (fun p c => (p.addContract c).2) {}

theorem overriding_built : overriding.Built :=
  (((Program.Built.empty.addContract _).addContract _).addContract _).addContract _

end Sample

namespace Program

/-- In the scope of `D` the name `f` stands for the first such function of `C`, and so `A`, which
has one too, is not nearer than `C`. -/
theorem visibilityOf_nearest_sample :
    Sample.overriding.Built ∧ Sample.overriding.ancestors 3 = [1, 2, 0] ∧
      (Scope.ofContract Sample.overriding 3).visibilityOf "f" = some .publicly ∧
      ∃ j f, Relation.TransGen Sample.overriding.Inherits 3 j ∧
        Sample.overriding.functionIn? j "f" = some f ∧ f.visibility = .publicly ∧
        ¬ (Relation.TransGen Sample.overriding.Inherits 3 0 ∧
          Reach.distance Sample.overriding.Inherits 3 0 <
            Reach.distance Sample.overriding.Inherits 3 j) := by
  have hfound : (Scope.ofContract Sample.overriding 3).visibilityOf "f" = some .publicly := by
    decide +kernel
  obtain ⟨-, -, hnearest⟩ := visibilityOf_nearest Sample.overriding_built 3 "f"
  refine ⟨Sample.overriding_built, by decide +kernel, hfound, ?_⟩
  rcases hnearest _ hfound with ⟨f, hf, -⟩ | ⟨-, j, f, -, hpath, hf, hv, hfirst⟩
  · cases hf
  · refine ⟨j, f, hpath, hf, hv, fun hnearer => ?_⟩
    cases hfirst 0 (by decide) hnearer.1 hnearer.2

end Program

end ContractAtlas
