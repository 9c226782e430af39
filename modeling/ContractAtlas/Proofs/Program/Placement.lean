import ContractAtlas.Proofs.Program.Registration
import Mathlib.Data.List.Induction

/-! Contracts apart from their place in the program. Which files are accepted, and what they bring
in but for places, does not depend on the order in which they are loaded. -/
namespace ContractAtlas

namespace Contract
variable {g : NodeKind → NodeKind} {m : Nat → Nat}

/-- The contract with nothing that tells its place: every number of a contract or a file is zero. -/
def unplaced (c : Contract) : Contract := (c.relabel (fun k => k) fun _ => 0).numbered 0

theorem unplaced_numbered (c : Contract) (id : Nat) : (c.numbered id).unplaced = c.unplaced := by
  simp only [unplaced, numbered, relabel, Function.relabel, Modifier.relabel, List.map_map,
    Function.comp_def]

theorem unplaced_relabel (c : Contract) :
    (c.relabel g m).unplaced = (c.relabel g fun _ => 0).numbered 0 := by
  rw [unplaced, relabel_relabel]
  rfl

theorem map_unplaced_numberedFrom (n : Nat) (cs : List Contract) :
    (numberedFrom n cs).map unplaced = cs.map unplaced := by
  apply List.ext_getElem?
  intro i
  simp only [numberedFrom, List.getElem?_map, List.getElem?_mapIdx, Option.map_map,
    Function.comp_def, unplaced_numbered]

end Contract

namespace SourceUnit

/-- The contracts of a file apart from their places; a file that is refused has none. -/
def contents (u : SourceUnit) : List Contract :=
  match u.read 0 with
  | .ok found => found.2.map Contract.unplaced
  | .error _ => []

theorem map_unplaced_of_read {u : SourceUnit} {file : Nat} {imports : List Import}
    {contracts : List Contract} (h : u.read file = .ok (imports, contracts)) :
    contracts.map Contract.unplaced = u.contents := by
  rw [contents, u.read_eq file 0, h]
  change _ = (contracts.map _).map _
  rw [List.map_map]
  refine List.map_congr_left fun c hc => ?_
  calc c.unplaced = (c.relabel NodeKind.unclassified fun _ => file).unplaced := by
        rw [relabel_of_mem_read h hc]
    _ = (c.relabel NodeKind.unclassified fun _ => 0).numbered 0 := c.unplaced_relabel
    _ = (c.relabel NodeKind.unclassified fun _ => 0).unplaced := c.unplaced_relabel.symm

theorem isOk_read (u : SourceUnit) (file : Nat) : (u.read file).isOk = (u.read 0).isOk := by
  rw [u.read_eq 0 file]
  cases u.read 0 <;> rfl

end SourceUnit

namespace Program

theorem contents_of_registerAll {units : List SourceUnit} {q : Program}
    (h : registerAll {} units = .ok q) :
    q.contracts.map Contract.unplaced = units.flatMap SourceUnit.contents := by
  induction units using List.reverseRecOn generalizing q with
  | nil =>
    cases h
    rfl
  | append_singleton units u ih =>
    obtain ⟨r, imports, contracts, hr, hread, rfl⟩ := registerAll_concat_ok h
    rw [extended, List.map_append, ih hr, Contract.map_unplaced_numberedFrom,
      SourceUnit.map_unplaced_of_read hread, List.flatMap_append, List.flatMap_singleton]

/-- A file is accepted or refused on its own. -/
theorem registerAll_ok_iff (units : List SourceUnit) :
    (∃ q, registerAll {} units = .ok q) ↔ ∀ u ∈ units, (u.read 0).isOk = true := by
  induction units using List.reverseRecOn with
  | nil => exact ⟨fun _ => nofun, fun _ => ⟨{}, rfl⟩⟩
  | append_singleton units u ih =>
    constructor
    · rintro ⟨q, h⟩ v hv
      obtain ⟨r, imports, contracts, hr, hread, rfl⟩ := registerAll_concat_ok h
      rcases List.mem_append.1 hv with hv | hv
      · exact ih.1 ⟨r, hr⟩ v hv
      · rw [List.mem_singleton.1 hv, ← u.isOk_read r.files.length, hread]
        rfl
    · intro h
      obtain ⟨r, hr⟩ := ih.2 fun v hv => h v (List.mem_append_left _ hv)
      have hu := h u (List.mem_append_right _ (List.mem_singleton_self u))
      rw [← u.isOk_read r.files.length] at hu
      cases hread : u.read r.files.length with
      | error e => rw [hread] at hu; cases hu
      | ok found => exact ⟨_, registerAll_concat_of_read hr hread⟩

/-- Loading the same files in another order brings in the same contracts, in other places. -/
theorem registerAll_perm {units units' : List SourceUnit} {q : Program} (hperm : units.Perm units')
    (h : registerAll {} units = .ok q) :
    ∃ q', registerAll {} units' = .ok q' ∧
      (q.contracts.map Contract.unplaced).Perm (q'.contracts.map Contract.unplaced) := by
  have haccepted := (registerAll_ok_iff units).1 ⟨q, h⟩
  obtain ⟨q', hq'⟩ := (registerAll_ok_iff units').2 fun u hu =>
    haccepted u (hperm.symm.subset hu)
  refine ⟨q', hq', ?_⟩
  rw [contents_of_registerAll h, contents_of_registerAll hq']
  exact hperm.flatMap_right _

end Program

end ContractAtlas
