import ContractAtlas.Proofs.Program.Coherence

/-! What lowering gives code and classifying calls leaves it, code has in a program whatever was
loaded. -/
namespace ContractAtlas

namespace Lowered
variable {s : TreeSource}

/-- The body of a function is lowered from a tree that may be a body. -/
theorem exists_of_mem_functions {t : ParseTree} {c : Contract} (hc : c ∈ (ofTree s t).contracts s)
    {f : Function} (hf : f ∈ c.functions) {body : Node} (hbody : f.body = some body) :
    ∃ x : ParseTree, x.isBody = true ∧ body = (ofTree s x).node := by
  obtain ⟨d, -, hd, -⟩ := exists_functionTree hc hf
  obtain ⟨x, hx, rfl⟩ := Option.map_eq_some_iff.1 (hd.symm.trans hbody)
  exact ⟨x, (List.mem_filter.1 (List.mem_of_getLast? hx)).2, rfl⟩

end Lowered

namespace Program
variable {P : Node → Prop} {p : Program}

/-- `P` holds of all bodies and initialisers of the program. -/
def AllCode (P : Node → Prop) (p : Program) : Prop := ∀ c ∈ p.contracts, ∀ code ∈ c.trees, P code.2

/-- `P` holds of the bodies of all functions of the program. -/
def AllBodies (P : Node → Prop) (p : Program) : Prop :=
  ∀ f ∈ p.functions, ∀ body, f.body = some body → P body

namespace AllCode

theorem extended (hp : p.AllCode P) (lowered : ∀ s x, P (Lowered.ofTree s x).node) {u : SourceUnit}
    {imports : List Import} {contracts : List Contract}
    (h : u.read p.files.length = .ok (imports, contracts)) :
    (p.extended u imports contracts).AllCode P := by
  intro c hc code hcode
  rcases List.mem_append.1 hc with hc | hc
  · exact hp c hc code hcode
  · obtain ⟨i, hi, rfl⟩ := List.mem_mapIdx.1 hc
    obtain ⟨-, -, -, rfl⟩ := SourceUnit.read_eq_ok h
    rw [Contract.trees_numbered] at hcode
    obtain ⟨x, -, he⟩ := Lowered.exists_of_mem_trees (List.getElem_mem hi) hcode
    rw [he]
    exact lowered _ x

theorem analyze (hp : p.AllCode P) (classified : ∀ settings s n, P n →
    P (Node.classifyCalls settings s none n))
    (settings : Settings) : (p.analyze settings).AllCode P := by
  intro c hc code hcode
  obtain ⟨d, hd, rfl⟩ := List.mem_map.1 hc
  rw [Contract.trees_analyze] at hcode
  obtain ⟨source, hsource, rfl⟩ := List.mem_map.1 hcode
  exact classified _ _ _ (hp d hd source hsource)

theorem enterAll (lowered : ∀ s x, P (Lowered.ofTree s x).node)
    (classified : ∀ settings s n, P n → P (Node.classifyCalls settings s none n))
    (loads : List (Option Settings × SourceUnit)) : (enterAll {} loads).AllCode P :=
  enterAll_induction (fun _ hc => nomatch hc) fun load _ _ (hq : AllCode P _) =>
    enter_induction (P := AllCode P) hq hq (fun _ _ hread => hq.extended lowered hread)
      (fun _ settings hr => hr.analyze classified settings) load.1

end AllCode

namespace AllBodies

theorem extended (hp : p.AllBodies P) (lowered : ∀ s x, x.isBody = true →
    P (Lowered.ofTree s x).node)
    {u : SourceUnit} {imports : List Import} {contracts : List Contract}
    (h : u.read p.files.length = .ok (imports, contracts)) :
    (p.extended u imports contracts).AllBodies P := by
  intro f hf body hbody
  obtain ⟨c, hc, hf⟩ := List.mem_flatMap.1 hf
  rcases List.mem_append.1 hc with hc | hc
  · exact hp f (List.mem_flatMap.2 ⟨c, hc, hf⟩) body hbody
  · obtain ⟨i, hi, rfl⟩ := List.mem_mapIdx.1 hc
    obtain ⟨-, -, -, rfl⟩ := SourceUnit.read_eq_ok h
    obtain ⟨g, hg, rfl⟩ := List.mem_map.1 hf
    obtain ⟨x, hx, rfl⟩ := Lowered.exists_of_mem_functions (List.getElem_mem hi) hg hbody
    exact lowered _ x hx

theorem analyze (hp : p.AllBodies P)
    (classified : ∀ settings s n, P n → P (Node.classifyCalls settings s none n))
    (settings : Settings) :
    (p.analyze settings).AllBodies P := by
  intro f hf body hbody
  obtain ⟨c, hc, hf⟩ := List.mem_flatMap.1 hf
  obtain ⟨d, hd, rfl⟩ := List.mem_map.1 hc
  obtain ⟨g, hg, rfl⟩ := List.mem_map.1 hf
  obtain ⟨source, hsource, rfl⟩ := Option.map_eq_some_iff.1 hbody
  exact classified _ _ _ (hp g (List.mem_flatMap.2 ⟨d, hd, hg⟩) source hsource)

theorem enterAll (lowered : ∀ s x, x.isBody = true → P (Lowered.ofTree s x).node)
    (classified : ∀ settings s n, P n → P (Node.classifyCalls settings s none n))
    (loads : List (Option Settings × SourceUnit)) : (enterAll {} loads).AllBodies P :=
  enterAll_induction (fun _ hf => nomatch hf) fun load _ _ (hq : AllBodies P _) =>
    enter_induction (P := AllBodies P) hq hq (fun _ _ hread => hq.extended lowered hread)
      (fun _ settings hr => hr.analyze classified settings) load.1

end AllBodies

end Program

end ContractAtlas
