import ContractAtlas.Proofs.Program.Numbering
import ContractAtlas.Proofs.Program.Placement
import Mathlib.Data.List.Nodup

/-! Programs whose contracts have distinct names: inheritance told by names alone, and the same in
every order of the contracts. -/
namespace ContractAtlas

namespace Contract

theorem find?_name_eq_some {cs : List Contract} (hn : (cs.map name).Nodup) {wanted : String}
    {c : Contract} : cs.find? (·.name == wanted) = some c ↔ c ∈ cs ∧ c.name = wanted := by
  constructor
  · intro h
    exact ⟨List.mem_of_find?_eq_some h, by simpa using List.find?_some h⟩
  · rintro ⟨hc, rfl⟩
    cases h : cs.find? (·.name == c.name) with
    | none => exact absurd (beq_self_eq_true c.name) (List.find?_eq_none.1 h c hc)
    | some d =>
      have hd : d.name = c.name := by simpa using List.find?_some h
      rw [List.inj_on_of_nodup_map hn (List.mem_of_find?_eq_some h) hc hd]

theorem find?_name_perm {cs ds : List Contract} (h : cs.Perm ds) (hn : (cs.map name).Nodup)
    (wanted : String) : cs.find? (·.name == wanted) = ds.find? (·.name == wanted) := by
  have hn' : (ds.map name).Nodup := (h.map name).nodup_iff.1 hn
  apply Option.ext
  intro c
  rw [find?_name_eq_some hn, find?_name_eq_some hn', h.mem_iff]

end Contract

namespace Program

/-- The loaded direct bases of the contract of a name, in the order written. -/
def baseNames (p : Program) (name : String) : List String :=
  match p.contractNamed? name with
  | some c => c.bases.filter fun base => (p.contractNamed? base).isSome
  | none => []

/-- The names of all contracts that the contract of a name inherits from, nearest first. -/
def ancestorNames (p : Program) (name : String) : List String :=
  Reach.levels p.baseNames p.contracts.length [name] [name]

def nameOf (p : Program) (i : Nat) : String := ((p.contract? i).map Contract.name).getD ""

theorem nameOf_id {p : Program} (hp : p.Numbered) {c : Contract} (hc : c ∈ p.contracts) :
    p.nameOf c.id = c.name := by
  rw [nameOf, hp.contract?_id hc, Option.map_some, Option.getD_some]

section Distinct
variable {p : Program} (hn : (p.contracts.map Contract.name).Nodup) (hp : p.Built)
include hn hp

theorem contractNamed?_of_mem {c : Contract} (hc : c ∈ p.contracts) :
    p.contractNamed? c.name = some c := by
  rw [contractNamed?_eq_find? hp.numbered hp.indexed]
  exact (Contract.find?_name_eq_some hn).2 ⟨hc, rfl⟩

theorem contractNamed?_nameOf {i : Nat} (hi : i < p.contracts.length) :
    p.contractNamed? (p.nameOf i) = p.contract? i := by
  have hc : p.contract? i = some p.contracts[i] := List.getElem?_eq_getElem hi
  rw [nameOf, hc, Option.map_some, Option.getD_some]
  exact contractNamed?_of_mem hn hp (List.getElem_mem hi)

theorem nameOf_inj {i j : Nat} (hi : i < p.contracts.length) (hj : j < p.contracts.length)
    (h : p.nameOf i = p.nameOf j) : i = j := by
  have hsame : p.contract? i = p.contract? j := by
    rw [← contractNamed?_nameOf hn hp hi, h, contractNamed?_nameOf hn hp hj]
  have hc : p.contract? i = some p.contracts[i] := List.getElem?_eq_getElem hi
  exact (hp.numbered i _ hc).symm.trans (hp.numbered j _ (hsame.symm.trans hc))

theorem map_nameOf_baseIds {i : Nat} (hi : i < p.contracts.length) :
    (p.baseIds i).map p.nameOf = p.baseNames (p.nameOf i) := by
  have hbase : ∀ base, ((p.contractNamed? base).map Contract.id).map p.nameOf =
      Option.guard (fun base => (p.contractNamed? base).isSome) base := by
    intro base
    cases hd : p.contractNamed? base with
    | none => rw [Option.guard, hd]; rfl
    | some d =>
      have hname := name_of_contractNamed? hp.numbered hp.indexed hd
      rw [Option.map_some, Option.map_some, nameOf_id hp.numbered (mem_of_contractNamed? hd), hname,
        Option.guard, hd]
      rfl
  have hc : p.contract? i = some p.contracts[i] := List.getElem?_eq_getElem hi
  simp only [baseIds, baseNames, contractNamed?_nameOf hn hp hi, hc, List.map_filterMap, hbase]
  exact congrFun List.filterMap_eq_filter _

theorem map_nameOf_ancestors {i : Nat} (hi : i < p.contracts.length) :
    (p.ancestors i).map p.nameOf = p.ancestorNames (p.nameOf i) := by
  rw [ancestors_eq_levels]
  refine Reach.map_levels (P := fun j => j < p.contracts.length)
    (fun j hj => (map_nameOf_baseIds hn hp hj).symm)
    (fun j _ k hk => lt_of_mem_baseIds hp.numbered hk)
    (fun j k hj hk h => nameOf_inj hn hp hj hk h) ?_ ?_
  · intro j hj
    rwa [List.mem_singleton.1 hj]
  · intro j hj
    rwa [List.mem_singleton.1 hj]

/-- The contracts that a contract inherits from, found by their names. -/
theorem filterMap_ancestors {i : Nat} (hi : i < p.contracts.length) :
    (p.ancestors i).filterMap p.contract? =
      (p.ancestorNames (p.nameOf i)).filterMap p.contractNamed? := by
  rw [← map_nameOf_ancestors hn hp hi, List.filterMap_map]
  apply List.filterMap_congr
  intro j hj
  obtain ⟨-, hpath⟩ := mem_ancestors_iff.1 hj
  obtain ⟨k, -, hk⟩ := Relation.TransGen.tail'_iff.1 hpath
  exact (contractNamed?_nameOf hn hp (lt_of_mem_baseIds hp.numbered hk)).symm

end Distinct

/-- The same contracts under distinct names, in two orders. -/
structure Reordered (p q : Program) : Prop where
  built : p.Built
  built' : q.Built
  distinct : (p.contracts.map Contract.name).Nodup
  perm : (p.contracts.map Contract.unplaced).Perm (q.contracts.map Contract.unplaced)

namespace Reordered
variable {p q : Program} (h : Reordered p q)
include h

theorem distinct' : (q.contracts.map Contract.name).Nodup := by
  have hnames := h.perm.map Contract.name
  rw [List.map_map, List.map_map] at hnames
  exact hnames.nodup_iff.1 h.distinct

theorem contractNamed? (name : String) :
    (q.contractNamed? name).map Contract.unplaced =
      (p.contractNamed? name).map Contract.unplaced := by
  have hdistinct : ((p.contracts.map Contract.unplaced).map Contract.name).Nodup := by
    rw [List.map_map]
    exact h.distinct
  have hfind := Contract.find?_name_perm h.perm hdistinct name
  rw [List.find?_map, List.find?_map] at hfind
  rw [contractNamed?_eq_find? h.built.numbered h.built.indexed,
    contractNamed?_eq_find? h.built'.numbered h.built'.indexed]
  exact hfind.symm

theorem baseNames : q.baseNames = p.baseNames := by
  have hsome : ∀ base, (q.contractNamed? base).isSome = (p.contractNamed? base).isSome := by
    intro base
    simpa only [Option.isSome_map] using congrArg Option.isSome (h.contractNamed? base)
  funext name
  have hname := h.contractNamed? name
  rw [Program.baseNames, Program.baseNames]
  simp only [hsome]
  cases hc : p.contractNamed? name with
  | none =>
    rw [hc, Option.map_none, Option.map_eq_none_iff] at hname
    rw [hname]
  | some c =>
    rw [hc, Option.map_some] at hname
    obtain ⟨d, hd, hcd⟩ := Option.map_eq_some_iff.1 hname
    have hbases := congrArg Contract.bases hcd
    rw [hd]
    exact congrArg (List.filter _) hbases

theorem ancestorNames (name : String) : q.ancestorNames name = p.ancestorNames name := by
  have hlength : p.contracts.length = q.contracts.length := by
    simpa only [List.length_map] using h.perm.length_eq
  rw [Program.ancestorNames, Program.ancestorNames, h.baseNames, hlength]

end Reordered

end Program

end ContractAtlas
