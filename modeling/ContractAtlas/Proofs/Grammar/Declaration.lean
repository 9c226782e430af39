import ContractAtlas.Grammar.Declaration
import ContractAtlas.Proofs.Grammar.Lowered

/-! Contracts and imports of a file under another file number. -/
namespace ContractAtlas

namespace Import

/-- The same import in a file under another number. -/
def renumber (m : Nat → Nat) (i : Import) : Import := { i with span := i.span.renumber m }

end Import

namespace Member

/-- The member under other file numbers and without classifications. -/
def relabel (m : Nat → Nat) : Member → Member
  | function f => function (f.relabel NodeKind.unclassified m)
  | modifier d => modifier (d.relabel NodeKind.unclassified m)
  | stateVariable v => stateVariable (v.relabel NodeKind.unclassified m)
  | event e => event { e with span := e.span.renumber m }
  | error e => error { e with span := e.span.renumber m }
  | struct d => struct { d with span := d.span.renumber m }
  | enum e => enum { e with span := e.span.renumber m }
  | attachment u => attachment u

end Member

namespace Contract

theorem add_relabel (m : Nat → Nat) (c : Contract) (member : Member) :
    (c.relabel NodeKind.unclassified m).add (member.relabel m) =
      (c.add member).relabel NodeKind.unclassified m := by
  cases member <;> simp only [add, relabel, Member.relabel, List.map_append,
    List.map_singleton] <;> rfl

theorem foldl_add_relabel (m : Nat → Nat) (c : Contract) (members : List Member) :
    (members.map (Member.relabel m)).foldl add (c.relabel NodeKind.unclassified m) =
      (members.foldl add c).relabel NodeKind.unclassified m := by
  induction members generalizing c with
  | nil => rfl
  | cons d ds ih => rw [List.map_cons, List.foldl_cons, List.foldl_cons, add_relabel, ih]

end Contract

namespace Lowered

variable {m : Nat → Nat} {s : TreeSource}

@[simp] theorem kind_relabel (l : Lowered) : (l.relabel m).kind = l.kind :=
  congrArg ParseTree.kind (relabel_tree l)

@[simp] theorem name_relabel (l : Lowered) : (l.relabel m).name (s.renumber m) = l.name s :=
  congrArg s.nameOf (relabel_tree l)

@[simp] theorem hasPart_relabel (l : Lowered) (kind : String) :
    (l.relabel m).hasPart kind = l.hasPart kind := by
  simp only [hasPart, relabel_parts, List.any_map, Function.comp_def, kind_relabel]

@[simp] theorem fieldName?_relabel (l : Lowered) (name : String) :
    (l.relabel m).fieldName? (s.renumber m) name = l.fieldName? s name := by
  simp only [fieldName?, field?_relabel, Option.map_map, Function.comp_def, relabel_tree]
  rfl

@[simp] theorem declaredName_relabel (l : Lowered) :
    (l.relabel m).declaredName (s.renumber m) = l.declaredName s := by
  rw [declaredName, declaredName, fieldName?_relabel, relabel_parts, content_relabel,
    List.find?_map]
  cases l.fieldName? s "name" with
  | some name => rfl
  | none =>
    simp only [Function.comp_def, kind_relabel]
    cases (content l.parts).find? fun p => p.kind == "identifier" with
    | some p => exact name_relabel p
    | none => rfl

@[simp] theorem parameter_relabel (l : Lowered) :
    (l.relabel m).parameter (s.renumber m) = l.parameter s := by
  simp only [parameter, fieldName?_relabel, relabel_parts, List.findSome?_map, Function.comp_def,
    name_relabel]

@[simp] theorem parameters_relabel (l : Lowered) :
    (l.relabel m).parameters (s.renumber m) = l.parameters s := by
  simp only [parameters, relabel_parts, content_relabel, List.filter_map, List.map_map,
    Function.comp_def, kind_relabel, parameter_relabel]

@[simp] theorem isBody_relabel (l : Lowered) : (l.relabel m).isBody = l.isBody := by
  rw [isBody, isBody, kind_relabel]

theorem describeFunction_relabel (f : Function) (p : Lowered) :
    describeFunction (s.renumber m) (f.relabel NodeKind.unclassified m) (p.relabel m) =
      (describeFunction s f p).relabel NodeKind.unclassified m := by
  simp only [describeFunction, kind_relabel, name_relabel, parameter_relabel, parameters_relabel,
    relabel_node]
  split
  any_goals rfl
  cases Visibility.ofName? (p.name s) with
  | some v => rfl
  | none =>
    simp only [apply_ite (Function.relabel NodeKind.unclassified m)]
    rfl

theorem foldl_describeFunction_relabel (f : Function) (parts : List Lowered) :
    (parts.map (relabel m)).foldl (describeFunction (s.renumber m))
        (f.relabel NodeKind.unclassified m) =
      (parts.foldl (describeFunction s) f).relabel NodeKind.unclassified m := by
  induction parts generalizing f with
  | nil => rfl
  | cons p ps ih =>
    rw [List.map_cons, List.foldl_cons, List.foldl_cons, describeFunction_relabel, ih]

theorem function_relabel (l : Lowered) (kind : FunctionKind) (inInterface : Bool) :
    (l.relabel m).function (s.renumber m) kind inInterface =
      (l.function s kind inInterface).relabel NodeKind.unclassified m := by
  simp only [function, fieldName?_relabel, relabel_parts, relabel_tree]
  rw [← foldl_describeFunction_relabel]
  rfl

theorem modifier_relabel (l : Lowered) :
    (l.relabel m).modifier (s.renumber m) =
      (l.modifier s).relabel NodeKind.unclassified m := by
  simp only [modifier, declaredName_relabel, parameters_relabel, hasPart_relabel, relabel_parts,
    List.find?_map, Option.map_map, Function.comp_def, isBody_relabel, relabel_node, relabel_tree,
    Modifier.relabel]
  rfl

@[simp] theorem valuePart?_relabel (l : Lowered) :
    (l.relabel m).valuePart? = l.valuePart?.map (relabel m) := by
  rw [valuePart?, valuePart?, field?_relabel]
  cases l.field? "value" with
  | some p => rfl
  | none =>
    rw [relabel_parts, List.dropWhile_map, ← List.map_tail]
    simp only [Function.comp_def, kind_relabel]
    exact List.head?_map ..

theorem stateVariable_relabel (l : Lowered) :
    (l.relabel m).stateVariable (s.renumber m) =
      (l.stateVariable s).relabel NodeKind.unclassified m := by
  simp only [stateVariable, declaredName_relabel, fieldName?_relabel, kind_relabel, hasPart_relabel,
    valuePart?_relabel, relabel_parts, List.foldl_map, name_relabel, Option.map_map,
    Function.comp_def, relabel_tree, relabel_node, StateVariable.relabel]
  rfl

private theorem nestedMembers_relabel {ps : List Lowered}
    (hps : ∀ p ∈ ps, (p.relabel m).structMembers (s.renumber m) = p.structMembers s) :
    nestedMembers (s.renumber m) (ps.map (relabel m)) = nestedMembers s ps := by
  induction ps with
  | nil => rfl
  | cons p ps ih =>
    rw [List.map_cons, nestedMembers, nestedMembers, isContent_relabel, kind_relabel,
      hps p List.mem_cons_self, ih fun q hq => hps q (List.mem_cons_of_mem _ hq)]

theorem structMembers_relabel (l : Lowered) :
    (l.relabel m).structMembers (s.renumber m) = l.structMembers s := by
  induction l with
  | lowered tree node parts ih =>
    rw [relabel_mk, structMembers, structMembers, nestedMembers_relabel ih, content_relabel,
      List.filter_map, List.map_map]
    simp only [Function.comp_def, kind_relabel, parameter_relabel]

theorem enumValues_relabel (l : Lowered) :
    (l.relabel m).enumValues (s.renumber m) = l.enumValues s := by
  simp only [enumValues, relabel_parts, content_relabel, List.flatMap_map,
    kind_relabel, name_relabel, List.filter_map, List.map_map, Function.comp_def]

theorem member?_relabel (inInterface : Bool) (l : Lowered) :
    member? (s.renumber m) inInterface (l.relabel m) =
      (member? s inInterface l).map (Member.relabel m) := by
  have htext : (s.renumber m).textOf l.tree = s.textOf l.tree := rfl
  simp only [member?, kind_relabel, function_relabel, modifier_relabel, stateVariable_relabel,
    declaredName_relabel, parameters_relabel, hasPart_relabel, structMembers_relabel,
    enumValues_relabel, relabel_tree, htext]
  split
  any_goals rfl
  rw [Option.map_map]
  rfl

theorem baseName_relabel (l : Lowered) : (l.relabel m).baseName (s.renumber m) = l.baseName s := by
  rw [baseName, baseName, field?_relabel]
  cases l.field? "ancestor" with
  | some p => exact congrArg (fun t => headOf (s.textOf t)) (relabel_tree p)
  | none => exact congrArg (fun t => headOf (s.textOf t)) (relabel_tree l)

theorem contractBody?_relabel (l : Lowered) :
    (l.relabel m).contractBody? = l.contractBody?.map (relabel m) := by
  rw [contractBody?, contractBody?, field?_relabel, relabel_parts, content_relabel, List.find?_map]
  cases l.field? "body" with
  | some p => rfl
  | none =>
    simp only [Function.comp_def, kind_relabel]
    rfl

private theorem filterMap_member?_relabel (inInterface : Bool) (parts : List Lowered) :
    (parts.map (relabel m)).filterMap (member? (s.renumber m) inInterface) =
      (parts.filterMap (member? s inInterface)).map (Member.relabel m) := by
  rw [List.filterMap_map, List.map_filterMap]
  exact congrArg (parts.filterMap ·) (funext fun l => member?_relabel inInterface l)

theorem contract_relabel (l : Lowered) (kind : ContractKind) :
    (l.relabel m).contract (s.renumber m) kind =
      (l.contract s kind).relabel NodeKind.unclassified m := by
  simp only [contract, contractBody?_relabel, fieldName?_relabel, relabel_parts, content_relabel,
    List.filter_map, List.map_map, Function.comp_def, kind_relabel, baseName_relabel, relabel_tree]
  rw [← Contract.foldl_add_relabel]
  cases l.contractBody? with
  | none => rfl
  | some body =>
    simp only [Option.map_some, relabel_parts, content_relabel, filterMap_member?_relabel]
    rfl

theorem contract?_relabel (l : Lowered) :
    contract? (s.renumber m) (l.relabel m) =
      (contract? s l).map (Contract.relabel NodeKind.unclassified m) := by
  simp only [contract?, kind_relabel, hasPart_relabel, contract_relabel]
  split <;> rfl

theorem fileMembers_relabel (l : Lowered) :
    (l.relabel m).fileMembers (s.renumber m) = (l.fileMembers s).map (Member.relabel m) := by
  rw [fileMembers, fileMembers, relabel_parts, content_relabel, List.filter_map,
    filterMap_member?_relabel]
  simp only [Function.comp_def, kind_relabel]

/-- The contracts of a file under another file number. -/
theorem contracts_relabel (l : Lowered) :
    (l.relabel m).contracts (s.renumber m) =
      (l.contracts s).map (Contract.relabel NodeKind.unclassified m) := by
  have hdeclared : (content (l.relabel m).parts).filterMap (contract? (s.renumber m)) =
      ((content l.parts).filterMap (contract? s)).map
        (Contract.relabel NodeKind.unclassified m) := by
    rw [relabel_parts, content_relabel, List.filterMap_map, List.map_filterMap]
    exact congrArg ((content l.parts).filterMap ·) (funext contract?_relabel)
  rw [contracts, contracts, fileMembers_relabel, hdeclared, relabel_tree]
  cases l.fileMembers s with
  | nil => rfl
  | cons d ds =>
    rw [List.map_cons, List.map_append, ← List.map_cons, List.map_singleton,
      ← Contract.foldl_add_relabel]
    rfl

/-- The import that a statement reads as, placed where the statement stands. -/
def placedImport (s : TreeSource) (p : Lowered) : Except ImportFault (Option Import) := do
  let read ← Import.ofText (s.textOf p.tree)
  return read.map fun i => { i with span := s.spanOf p.tree, excerpt := s.excerptOf p.tree }

theorem imports_eq_mapM (s : TreeSource) (l : Lowered) : l.imports s =
    (((content l.parts).filter fun p => p.kind == "import_directive").mapM (placedImport s)).map
      (List.filterMap fun i => i) := rfl

private theorem placedImport_relabel (p : Lowered) :
    placedImport (s.renumber m) (p.relabel m) =
      (placedImport s p).map (Option.map (Import.renumber m)) := by
  have htext : (s.renumber m).textOf p.tree = s.textOf p.tree := rfl
  rw [placedImport, placedImport, relabel_tree, htext]
  rcases Import.ofText (s.textOf p.tree) with _ | _ | i
  · rfl
  · rfl
  · rfl

private theorem mapM_placedImport_relabel (ps : List Lowered) :
    (ps.map (relabel m)).mapM (placedImport (s.renumber m)) =
      (ps.mapM (placedImport s)).map (List.map (Option.map (Import.renumber m))) := by
  induction ps with
  | nil => rfl
  | cons p ps ih =>
    rw [List.map_cons, List.mapM_cons, List.mapM_cons, placedImport_relabel, ih]
    cases placedImport s p with
    | error e => rfl
    | ok i => cases ps.mapM (placedImport s) <;> rfl

/-- The imports of a file under another file number; whether they can be read does not depend on
it. -/
theorem imports_relabel (l : Lowered) :
    (l.relabel m).imports (s.renumber m) =
      (l.imports s).map (List.map (Import.renumber m)) := by
  rw [imports_eq_mapM, imports_eq_mapM, relabel_parts, content_relabel, List.filter_map,
    mapM_placedImport_relabel]
  simp only [Function.comp_def, kind_relabel]
  cases ((content l.parts).filter fun p => p.kind == "import_directive").mapM (placedImport s) with
  | error e => rfl
  | ok found =>
    refine congrArg Except.ok ?_
    rw [List.filterMap_map, List.map_filterMap]
    rfl

end Lowered

end ContractAtlas
