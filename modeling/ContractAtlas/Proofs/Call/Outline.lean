import ContractAtlas.Proofs.Call.Frame

/-! What a scope is made of: of every contract no more than its outline. -/
namespace ContractAtlas

namespace Contract

/-- A contract with nothing but what other contracts may see of it. -/
def outline (c : Contract) : Contract :=
  { id := c.id
    name := c.name
    kind := c.kind
    bases := c.bases
    functions := c.functions.map fun f => { name := f.name, visibility := f.visibility }
    stateVariables := c.stateVariables.map fun v => { name := v.name }
    attachments := c.attachments }

theorem outline_unanalysed (c : Contract) : c.unanalysed.outline = c.outline := by
  simp only [outline, unanalysed, Function.unanalysed, List.map_map, Function.comp_def]

end Contract

namespace Program

def outline (p : Program) : Program where
  contracts := p.contracts.map Contract.outline
  byName := p.byName

theorem outline_unanalysed (p : Program) : p.unanalysed.outline = p.outline := by
  simp only [outline, unanalysed, List.map_map, Function.comp_def, Contract.outline_unanalysed]

theorem contract?_outline (p : Program) (id : Nat) :
    p.outline.contract? id = (p.contract? id).map Contract.outline := by
  rw [contract?, contract?, outline, List.getElem?_map]

theorem contractNamed?_outline (p : Program) (name : String) :
    p.outline.contractNamed? name = (p.contractNamed? name).map Contract.outline :=
  @contractNamed?_map p p.outline _ rfl rfl name

theorem ancestors_outline (p : Program) (id : Nat) : p.outline.ancestors id = p.ancestors id := by
  have hbases : p.outline.baseIds = p.baseIds := by
    funext i
    rw [baseIds, baseIds, contract?_outline]
    cases p.contract? i with
    | none => rfl
    | some c =>
      refine congrArg (c.bases.filterMap ·) (funext fun name => ?_)
      rw [contractNamed?_outline, Option.map_map]
      rfl
  rw [ancestors, ancestors, hbases, outline, List.length_map]

end Program

namespace Scope

theorem ofContract_of_some {p : Program} {id : Nat} {c : Contract} (h : p.contract? id = some c) :
    ofContract p id = assemble id c ((p.ancestors id).filterMap p.contract?)
      (p.contracts.filter Contract.isLibrary) := by
  rw [ofContract, h]

theorem assemble_outline (id : Nat) (c : Contract) (ancestors libraries : List Contract) :
    assemble id c.outline (ancestors.map Contract.outline) (libraries.map Contract.outline) =
      assemble id c ancestors libraries := by
  simp only [assemble, visibilitiesOf, Contract.outline, List.flatMap_map, List.map_flatMap,
    List.map_map, List.filter_map, Function.comp_def]

theorem ofContract_outline (p : Program) (id : Nat) :
    ofContract p.outline id = ofContract p id := by
  cases hc : p.contract? id with
  | none => rw [ofContract, ofContract, Program.contract?_outline, hc, Option.map_none]
  | some c =>
    have hinherited : (p.ancestors id).filterMap p.outline.contract? =
        ((p.ancestors id).filterMap p.contract?).map Contract.outline := by
      rw [List.map_filterMap]
      exact congrArg ((p.ancestors id).filterMap ·) (funext fun i => p.contract?_outline i)
    have hlibraries : p.outline.contracts.filter Contract.isLibrary =
        (p.contracts.filter Contract.isLibrary).map Contract.outline := by
      rw [Program.outline, List.filter_map]
      rfl
    have hoc : p.outline.contract? id = some c.outline := by
      rw [Program.contract?_outline, hc, Option.map_some]
    rw [ofContract_of_some hoc, Program.ancestors_outline, hinherited, hlibraries, assemble_outline,
      ofContract_of_some hc]

/-- Programs with the same outline give every contract the same scope. -/
theorem ofContract_congr {p q : Program} (h : p.outline = q.outline) (id : Nat) :
    ofContract p id = ofContract q id := by
  rw [← ofContract_outline p, h, ofContract_outline]

theorem ofContract_contracts_congr {p q : Program} (hcontracts : p.contracts = q.contracts)
    (hnames : p.byName = q.byName) (id : Nat) : ofContract p id = ofContract q id := by
  apply ofContract_congr
  rw [Program.outline, hcontracts, hnames, Program.outline]

theorem ofContract_unanalysed_congr {p q : Program} (h : p.unanalysed = q.unanalysed) (id : Nat) :
    ofContract p id = ofContract q id := by
  apply ofContract_congr
  rw [← p.outline_unanalysed, h, q.outline_unanalysed]

end Scope

end ContractAtlas
