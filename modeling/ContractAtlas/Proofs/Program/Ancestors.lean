import ContractAtlas.Proofs.Program.Numbering
import ContractAtlas.Proofs.Reach.Distance

/-! The ancestors of a contract: all contracts that inheritance leads to, each once, nearest
first. -/
namespace ContractAtlas

namespace Program

/-- `i` is the number of the first contract of this name. -/
def FirstNamed (p : Program) (name : String) (i : Nat) : Prop :=
  (∃ c, p.contract? i = some c ∧ c.name = name) ∧
    ∀ j < i, ∀ c, p.contract? j = some c → c.name ≠ name

/-- One step of inheritance: `j` is the first contract that bears one of the base names of `i`. -/
def Inherits (p : Program) (i j : Nat) : Prop :=
  ∃ c, p.contract? i = some c ∧ ∃ base ∈ c.bases, p.FirstNamed base j

variable {p : Program}

theorem firstNamed_iff (hp : p.Built) {name : String} {i : Nat} :
    p.FirstNamed name i ↔ ∃ c, p.contractNamed? name = some c ∧ c.id = i := by
  rw [FirstNamed, contractNamed?_eq_find? hp.numbered hp.indexed]
  constructor
  · rintro ⟨⟨c, hc, hname⟩, hfirst⟩
    refine ⟨c, ?_, hp.numbered i c hc⟩
    obtain ⟨hi, he⟩ := List.getElem?_eq_some_iff.1 hc
    refine List.find?_eq_some_iff_getElem.2 ⟨by simpa using hname, i, hi, he, fun j hj => ?_⟩
    simpa using hfirst j hj _ (List.getElem?_eq_getElem (Nat.lt_trans hj hi))
  · rintro ⟨c, hc, rfl⟩
    obtain ⟨hname, i, hi, he, hfirst⟩ := List.find?_eq_some_iff_getElem.1 hc
    have hat : p.contract? i = some c := List.getElem?_eq_some_iff.2 ⟨hi, he⟩
    rw [hp.numbered i c hat]
    refine ⟨⟨c, hat, by simpa using hname⟩, fun j hj d hd => ?_⟩
    obtain ⟨-, rfl⟩ := List.getElem?_eq_some_iff.1 hd
    simpa using hfirst j hj

theorem mem_baseIds_iff (hp : p.Built) {i j : Nat} : j ∈ p.baseIds i ↔ p.Inherits i j := by
  rw [baseIds, Inherits]
  cases p.contract? i with
  | none => simp
  | some c => simp [firstNamed_iff hp]

theorem mem_baseIds_eq_inherits (hp : p.Built) : (fun i j => j ∈ p.baseIds i) = p.Inherits := by
  funext i j
  exact propext (mem_baseIds_iff hp)

theorem mem_ancestors_iff_inherits (hp : p.Built) {i j : Nat} :
    j ∈ p.ancestors i ↔ j ≠ i ∧ Relation.TransGen p.Inherits i j := by
  rw [mem_ancestors_iff, mem_baseIds_eq_inherits hp]

theorem nodup_ancestors (p : Program) (id : Nat) : (p.ancestors id).Nodup := by
  rw [ancestors_eq_levels]
  exact Reach.nodup_levels _ _ _

theorem pairwise_ancestors (hp : p.Built) (id : Nat) :
    (p.ancestors id).Pairwise fun i j =>
      Reach.distance p.Inherits id i ≤ Reach.distance p.Inherits id j := by
  rw [← mem_baseIds_eq_inherits hp, ancestors_eq_levels]
  exact (Reach.Layer.start p.baseIds id).pairwise_levels p.contracts.length

/-- Whatever the inheritance between the contracts, cyclic or not: the ancestors of a contract are
the other contracts that one or more steps of inheritance lead to, each listed once and none before
one that is nearer; and the search comes to its end: nothing waits any more. -/
theorem ancestors_nearest_first (hp : p.Built) (id : Nat) :
    (p.ancestors id).Nodup ∧
      (∀ j, j ∈ p.ancestors id ↔ j ≠ id ∧ Relation.TransGen p.Inherits id j) ∧
      ((p.ancestors id).Pairwise fun i j =>
        Reach.distance p.Inherits id i ≤ Reach.distance p.Inherits id j) ∧
      ((Reach.Queue.start id).run p.baseIds (p.contracts.length + 1)).pending = [] := by
  obtain ⟨seen, hrun⟩ := p.exists_run_baseIds id
  exact ⟨p.nodup_ancestors id, fun _ => mem_ancestors_iff_inherits hp, pairwise_ancestors hp id,
    congrArg Reach.Queue.pending hrun⟩

end Program

namespace Sample

/-- Two ways from `D` to the first `A`, which inherits from `D` in turn; one base is not loaded, and
the second `A` is nobody's base. -/
def inheriting : Program :=
  let contracts : List Contract :=
    [{ name := "A", bases := ["D"] }, { name := "B", bases := ["A"] },
     { name := "C", bases := ["A"] }, { name := "D", bases := ["B", "Missing", "C"] },
     { name := "A" }]
  contracts.foldl (fun p c => (p.addContract c).2) {}

theorem inheriting_built : inheriting.Built :=
  ((((Program.Built.empty.addContract _).addContract _).addContract _).addContract _).addContract _

end Sample

namespace Program

theorem ancestors_nearest_first_sample :
    Sample.inheriting.Built ∧ Sample.inheriting.ancestors 3 = [1, 2, 0] ∧
      Relation.TransGen Sample.inheriting.Inherits 3 0 ∧
      Reach.distance Sample.inheriting.Inherits 3 2 ≤
        Reach.distance Sample.inheriting.Inherits 3 0 ∧
      ((Reach.Queue.start 3).run Sample.inheriting.baseIds 6).pending = [] := by
  have hfound : Sample.inheriting.ancestors 3 = [1, 2, 0] := by decide +kernel
  obtain ⟨-, hexact, hordered, hend⟩ := ancestors_nearest_first Sample.inheriting_built 3
  rw [hfound] at hordered
  refine ⟨Sample.inheriting_built, hfound, ((hexact 0).1 ?_).2, ?_, hend⟩
  · rw [hfound]
    decide
  · obtain ⟨-, hrest⟩ := List.pairwise_cons.1 hordered
    exact (List.pairwise_cons.1 hrest).1 0 List.mem_cons_self

end Program

end ContractAtlas
