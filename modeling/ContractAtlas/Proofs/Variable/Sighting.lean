import ContractAtlas.Proofs.Program.Walk
import ContractAtlas.Variable.Reference

/-! The references in a tree, taken together: all are made in the same way. -/
namespace ContractAtlas.Node

variable (function : String) (statement : Text)

theorem expressionSightings_eq (access : Access) (ns : List Node) :
    expressionSightings function statement access ns =
      ns.flatMap (expressionSighting function statement access) := by
  induction ns with
  | nil => rfl
  | cons n ns ih => rw [expressionSightings, ih, List.flatMap_cons]

theorem partSightings_eq (ns : List Node) :
    partSightings function statement ns = ns.flatMap fun n =>
      if n.isStatement then sightings function n
      else expressionSighting function statement .read n := by
  induction ns with
  | nil => rfl
  | cons n ns ih => rw [partSightings, ih, List.flatMap_cons]

section Base
variable {function statement} {base : Node} {access : Access} {span : Span} {excerpt : Excerpt}
    {rest : List Node}

/-- The base of an index is recorded on the spot if it is a name, -/
theorem indexSighting_of_some {name : String} (h : base.identifier? = some name) :
    expressionSighting function statement access ⟨.indexAccess, span, excerpt, base :: rest⟩ =
      expressionSightings function statement .read rest ++
        [Sighting.make function name base.span statement .index access false] := by
  rw [expressionSighting, h]

/-- and looked into if not. -/
theorem indexSighting_of_none (h : base.identifier? = none) :
    expressionSighting function statement access ⟨.indexAccess, span, excerpt, base :: rest⟩ =
      expressionSightings function statement .read rest ++
        expressionSighting function statement access base := by
  rw [expressionSighting, h]

theorem memberSighting_of_some {member name : String} (h : base.identifier? = some name) :
    expressionSighting function statement access
      ⟨.memberAccess member, span, excerpt, base :: rest⟩ =
      [Sighting.make function name base.span statement .member access false] := by
  rw [expressionSighting, h]

theorem memberSighting_of_none {member : String} (h : base.identifier? = none) :
    expressionSighting function statement access
      ⟨.memberAccess member, span, excerpt, base :: rest⟩ =
      expressionSighting function statement access base := by
  rw [expressionSighting, h]

end Base

/-- What holds of every reference as it is made holds of the references in a tree. -/
theorem forall_mem_sightings {P : Sighting → Prop}
    (make : ∀ name span statement path access declares,
      P (Sighting.make function name span statement path access declares)) (n : Node) :
    (∀ statement access, ∀ s ∈ expressionSighting function statement access n, P s) ∧
      ∀ s ∈ sightings function n, P s := by
  induction n with
  | node kind span excerpt children ih =>
    have hall : ∀ ns, ns ⊆ children → ∀ statement access,
        ∀ s ∈ expressionSightings function statement access ns, P s := by
      intro ns hns statement access s hs
      rw [expressionSightings_eq] at hs
      obtain ⟨c, hc, hs⟩ := List.mem_flatMap.1 hs
      exact (ih c (hns hc)).1 statement access s hs
    have hparts : ∀ statement, ∀ s ∈ partSightings function statement children, P s := by
      intro statement s hs
      rw [partSightings_eq] at hs
      obtain ⟨c, hc, hs⟩ := List.mem_flatMap.1 hs
      split at hs
      · exact (ih c hc).2 s hs
      · exact (ih c hc).1 statement .read s hs
    constructor
    · intro statement access s hs
      cases kind with
      | identifier name =>
        cases List.mem_singleton.1 hs
        exact make _ _ _ _ _ _
      | indexAccess =>
        cases children with
        | nil => cases hs
        | cons base keys =>
          have hkeys := hall keys (List.subset_cons_self base keys) statement .read s
          cases hbase : base.identifier? with
          | some name =>
            rw [indexSighting_of_some hbase] at hs
            rcases List.mem_append.1 hs with hs | hs
            · exact hkeys hs
            · cases List.mem_singleton.1 hs
              exact make _ _ _ _ _ _
          | none =>
            rw [indexSighting_of_none hbase] at hs
            rcases List.mem_append.1 hs with hs | hs
            · exact hkeys hs
            · exact (ih base List.mem_cons_self).1 statement access s hs
      | memberAccess member =>
        cases children with
        | nil => cases hs
        | cons object rest =>
          cases hobject : object.identifier? with
          | some name =>
            rw [memberSighting_of_some hobject] at hs
            cases List.mem_singleton.1 hs
            exact make _ _ _ _ _ _
          | none =>
            rw [memberSighting_of_none hobject] at hs
            exact (ih object List.mem_cons_self).1 statement access s hs
      | assignment operator =>
        cases children with
        | nil => cases hs
        | cons target values =>
          rcases List.mem_append.1 hs with hs | hs
          · exact (ih target List.mem_cons_self).1 statement _ s hs
          · exact hall values (List.subset_cons_self target values) statement .read s hs
      | update operator => exact hall children (List.Subset.refl _) statement .readWrite s hs
      | call site =>
        cases children with
        | nil => cases hs
        | cons callee arguments =>
          rcases List.mem_append.1 hs with hs | hs
          · split at hs
            · cases hs
            · exact (ih callee List.mem_cons_self).1 statement .read s hs
          · exact hall arguments (List.subset_cons_self callee arguments) statement .read s hs
      | literal | elementaryType | creation => cases hs
      | _ => exact hparts statement s hs
    · intro s hs
      cases kind with
      | declaration names =>
        rcases List.mem_append.1 hs with hs | hs
        · obtain ⟨name, -, rfl⟩ := List.mem_map.1 hs
          exact make _ _ _ _ _ _
        · exact hall children (List.Subset.refl _) excerpt.text .read s hs
      | assembly => cases hs
      | _ => exact hparts excerpt.text s hs

end ContractAtlas.Node
