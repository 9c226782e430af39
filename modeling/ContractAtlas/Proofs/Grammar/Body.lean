import ContractAtlas.Grammar.Declaration
import ContractAtlas.Proofs.Call.Classification
import ContractAtlas.Proofs.Grammar.Subtree

/-! Where the bodies of a file come from: every body and initialiser is the lowered form of a tree
of the file, and the functions are those that the file declares, in order. -/
namespace ContractAtlas

namespace ParseTree

def isBody (t : ParseTree) : Bool := t.kind == "function_body" || t.kind == "block_statement"

/-- The body of a function, the last one written if there are several. -/
def body? (t : ParseTree) : Option ParseTree := (t.children.filter isBody).getLast?

/-- Whether the tree declares a function, constructor, fallback or receiver. -/
def isFunction (t : ParseTree) : Bool :=
  t.kind == "function_definition" || t.kind == "constructor_definition" ||
    t.kind == "fallback_receive_definition"

def isContract (t : ParseTree) : Bool :=
  t.kind == "contract_declaration" || t.kind == "interface_declaration" ||
    t.kind == "library_declaration"

/-- What stands in the body of a contract. -/
def members (t : ParseTree) : List ParseTree :=
  (((t.field? "body").orElse fun _ => t.content.find? fun c => c.kind == "contract_body").map
    content).getD []

/-- The functions that a file declares: those of its contracts, then those outside any contract. -/
def functionTrees (t : ParseTree) : List ParseTree :=
  (t.content.filter isContract).flatMap (fun c => c.members.filter isFunction) ++
    (t.content.filter fun c => !c.isContract).filter isFunction

theorem mem_children_of_body? {t b : ParseTree} (h : t.body? = some b) : b ∈ t.children :=
  (List.mem_filter.1 (List.mem_of_getLast? h)).1

theorem mem_subtrees_of_mem_members {t d : ParseTree} (h : d ∈ t.members) : d ∈ t.subtrees := by
  rw [members] at h
  obtain ⟨body, hbody, hd⟩ : ∃ body ∈ t.children, d ∈ body.content := by
    cases hfield : t.field? "body" with
    | some body =>
      rw [hfield] at h
      exact ⟨body, mem_children_of_field? hfield, h⟩
    | none =>
      rw [hfield] at h
      cases hfirst : t.content.find? fun c => c.kind == "contract_body" with
      | some body =>
        simp only [Option.orElse_none, hfirst] at h
        exact ⟨body, t.content_subset (List.mem_of_find?_eq_some hfirst), h⟩
      | none =>
        simp only [Option.orElse_none, hfirst] at h
        cases h
  exact mem_subtrees_of_child hbody
    (mem_subtrees_of_child (body.content_subset hd) d.self_mem_subtrees)

theorem mem_subtrees_of_functionTrees {t d : ParseTree} (h : d ∈ t.functionTrees) :
    d ∈ t.subtrees := by
  rcases List.mem_append.1 h with h | h
  · obtain ⟨c, hc, hd⟩ := List.mem_flatMap.1 h
    have hc := t.content_subset (List.mem_filter.1 hc).1
    exact mem_subtrees_of_child hc (mem_subtrees_of_mem_members (List.mem_filter.1 hd).1)
  · have hd := t.content_subset (List.mem_filter.1 (List.mem_filter.1 h).1).1
    exact mem_subtrees_of_child hd d.self_mem_subtrees

end ParseTree

namespace Function

/-- What a declaration sets of a function for the analysis: its place, its body and a summary. -/
def lowering (f : Function) : Span × Option Node × CallSummary := (f.span, f.body, f.summary)

end Function

namespace Member

def function? : Member → Option Function
  | function f => some f
  | _ => none

/-- The body or initialiser of a member. -/
def code? : Member → Option Node
  | function f => f.body
  | modifier d => d.body
  | stateVariable v => v.initializer
  | _ => none

end Member

namespace Contract

/-- The contract has nothing that could hold code yet. -/
structure IsBare (c : Contract) : Prop where
  functions : c.functions = []
  modifiers : c.modifiers = []
  stateVariables : c.stateVariables = []

/-- Members join a contract in order. -/
theorem functions_foldl_add (c : Contract) (members : List Member) :
    (members.foldl add c).functions.map Function.lowering =
      c.functions.map Function.lowering ++
        (members.filterMap Member.function?).map Function.lowering := by
  induction members generalizing c with
  | nil => rw [List.foldl_nil, List.filterMap_nil, List.map_nil, List.append_nil]
  | cons m ms ih =>
    rw [List.foldl_cons, ih]
    cases m with
    | function f =>
      rw [add, List.map_append, List.append_assoc]
      rfl
    | _ => rfl

theorem IsBare.trees {c : Contract} (h : c.IsBare) : c.trees = [] := by
  rw [Contract.trees, h.functions, h.modifiers, h.stateVariables]
  rfl

theorem map_snd_trees (c : Contract) :
    c.trees.map Prod.snd = c.functions.filterMap Function.body ++
      c.modifiers.filterMap Modifier.body ++
      c.stateVariables.filterMap StateVariable.initializer := by
  simp only [trees, List.map_append, List.map_filterMap, Option.map_map, Function.comp_def,
    Option.map_id']

private theorem mem_filterMap_concat {α : Type} {f : α → Option Node} {as : List α}
    {a : α} {n : Node} :
    n ∈ (as ++ [a]).filterMap f ↔ n ∈ as.filterMap f ∨ f a = some n := by
  rw [List.filterMap_append, List.mem_append, List.mem_filterMap, List.mem_filterMap]
  refine or_congr_right ⟨?_, fun h => ⟨a, List.mem_singleton_self a, h⟩⟩
  rintro ⟨b, hb, h⟩
  exact List.mem_singleton.1 hb ▸ h

/-- The code of a contract grows by that of the member that joins it. -/
theorem mem_trees_add {c : Contract} {m : Member} {n : Node}
    (h : n ∈ (c.add m).trees.map Prod.snd) : n ∈ c.trees.map Prod.snd ∨ m.code? = some n := by
  rw [map_snd_trees, List.mem_append, List.mem_append] at h ⊢
  cases m with
  | function f =>
    rw [add, mem_filterMap_concat] at h
    exact h.elim (fun h => h.elim (fun h => h.imp_left (.inl ∘ .inl)) (.inl ∘ .inl ∘ .inr))
      (.inl ∘ .inr)
  | modifier d =>
    rw [add, mem_filterMap_concat] at h
    exact h.elim (fun h => h.elim (.inl ∘ .inl ∘ .inl) (fun h => h.imp_left (.inl ∘ .inr)))
      (.inl ∘ .inr)
  | stateVariable v =>
    rw [add, mem_filterMap_concat] at h
    exact h.elim (.inl ∘ .inl) (fun h => h.imp_left .inr)
  | _ => exact .inl h

theorem mem_trees_foldl_add {c : Contract} {members : List Member} {n : Node}
    (h : n ∈ (members.foldl add c).trees.map Prod.snd) :
    n ∈ c.trees.map Prod.snd ∨ ∃ m ∈ members, m.code? = some n := by
  induction members generalizing c with
  | nil => exact .inl h
  | cons m ms ih =>
    rcases ih h with h | ⟨d, hd, hn⟩
    · exact (mem_trees_add h).imp_right fun hn => ⟨m, List.mem_cons_self, hn⟩
    · exact .inr ⟨d, List.mem_cons_of_mem _ hd, hn⟩

end Contract

namespace Lowered
variable {s : TreeSource}

theorem describeFunction_body (f : Function) (p : Lowered) :
    (describeFunction s f p).body = if p.isBody = true then some p.node else f.body := by
  rw [describeFunction, isBody]
  split <;> simp_all
  · split
    · rfl
    · split <;> rfl

theorem foldl_describeFunction_body (parts : List Lowered) (f : Function) :
    (parts.foldl (describeFunction s) f).body =
      ((parts.filter isBody).getLast?.map node).or f.body := by
  induction parts generalizing f with
  | nil => rfl
  | cons p ps ih =>
    rw [List.foldl_cons, ih, describeFunction_body, List.filter_cons]
    split
    · rw [List.getLast?_cons]
      cases (ps.filter isBody).getLast? <;> rfl
    · rfl

theorem foldl_describeFunction_keeps (parts : List Lowered) (f : Function) :
    (parts.foldl (describeFunction s) f).span = f.span ∧
      (parts.foldl (describeFunction s) f).summary = f.summary := by
  induction parts generalizing f with
  | nil => exact ⟨rfl, rfl⟩
  | cons p ps ih =>
    rw [List.foldl_cons, (ih _).1, (ih _).2, describeFunction]
    split
    any_goals exact ⟨rfl, rfl⟩
    split
    · exact ⟨rfl, rfl⟩
    · split <;> exact ⟨rfl, rfl⟩

theorem isBody_ofTree (t : ParseTree) : (ofTree s t).isBody = t.isBody := by
  rw [isBody, kind, ofTree_tree, ParseTree.isBody]

theorem function_ofTree (d : ParseTree) (kind : FunctionKind) (inInterface : Bool) :
    ((ofTree s d).function s kind inInterface).lowering =
      (s.spanOf d, d.body?.map (fun b => (ofTree s b).node), {}) := by
  have hbodies : (d.children.map (ofTree s)).filter isBody =
      (d.children.filter ParseTree.isBody).map (ofTree s) := by
    rw [List.filter_map]
    simp only [Function.comp_def, isBody_ofTree]
  have hbody : ((ofTree s d).function s kind inInterface).body =
      d.body?.map fun b => (ofTree s b).node := by
    simp only [function, foldl_describeFunction_body, ofTree_parts, hbodies, List.getLast?_map,
      Option.map_map, Option.or_none, ParseTree.body?]
    rfl
  have hspan : ((ofTree s d).function s kind inInterface).span = s.spanOf d := by
    simp only [function, (foldl_describeFunction_keeps _ _).1, ofTree_tree]
  have hsummary : ((ofTree s d).function s kind inInterface).summary = {} :=
    (foldl_describeFunction_keeps _ _).2
  rw [Function.lowering, hbody, hspan, hsummary]

/-- The functions among the members of a contract or a file. -/
theorem member?_function (inInterface : Bool) (d : ParseTree) :
    ((member? s inInterface (ofTree s d)).bind Member.function?).map Function.lowering =
      if d.isFunction = true then some (s.spanOf d, d.body?.map (fun b => (ofTree s b).node), {})
      else none := by
  have hkind : (ofTree s d).kind = d.kind := congrArg ParseTree.kind (ofTree_tree d)
  rw [member?, hkind]
  split
  case h_1 h =>
    rw [if_pos (by simp [ParseTree.isFunction, h]), ← function_ofTree d .function inInterface]
    rfl
  case h_2 h =>
    rw [if_pos (by simp [ParseTree.isFunction, h]), ← function_ofTree d .constructor false]
    rfl
  case h_3 h =>
    rw [if_pos (by simp [ParseTree.isFunction, h]), ← function_ofTree d _ false]
    rfl
  case h_11 h =>
    rw [if_neg (by simp [ParseTree.isFunction, h])]
    cases UsingClause.ofText? (s.textOf (ofTree s d).tree) <;> rfl
  all_goals
    rw [if_neg (by simp_all [ParseTree.isFunction])]
    rfl

/-- The functions of a list of members, each with its span and body. -/
theorem functions_filterMap_member? (inInterface : Bool) (ds : List ParseTree) :
    (((ds.map (ofTree s)).filterMap (member? s inInterface)).filterMap Member.function?).map
        Function.lowering =
      (ds.filter ParseTree.isFunction).map fun d =>
        (s.spanOf d, d.body?.map (fun b => (ofTree s b).node), {}) := by
  rw [List.filterMap_filterMap, List.filterMap_map, List.map_filterMap, ← List.filterMap_eq_filter,
    List.map_filterMap]
  refine congrArg (ds.filterMap ·) (funext fun d => ?_)
  rw [Function.comp_apply, member?_function]
  simp only [Option.guard]
  split <;> rfl

theorem contractBody?_ofTree (c : ParseTree) :
    ((ofTree s c).contractBody?.map fun body => content body.parts).getD [] =
      c.members.map (ofTree s) := by
  have hfield : (ofTree s c).field? "body" = (c.field? "body").map (ofTree s) := by
    rw [field?, ofTree_tree, ofTree_parts, fieldIn?_ofTree]
  have hfirst : (content (ofTree s c).parts).find? (fun p => p.kind == "contract_body") =
      (c.content.find? fun d => d.kind == "contract_body").map (ofTree s) := by
    rw [ofTree_parts, content_ofTree, List.find?_map]
    simp only [Function.comp_def, kind, ofTree_tree]
  rw [contractBody?, hfield, hfirst, ParseTree.members]
  cases c.field? "body" with
  | some body => simp only [Option.map_some, Option.orElse_some, Option.getD_some, ofTree_parts,
      content_ofTree]
  | none =>
    simp only [Option.map_none, Option.orElse_none]
    cases c.content.find? fun d => d.kind == "contract_body" with
    | some body => simp only [Option.map_some, Option.getD_some, ofTree_parts, content_ofTree]
    | none => rfl

/-- A contract is made of its members one after the other. -/
theorem exists_contract (c : ParseTree) (kind : ContractKind) :
    ∃ base : Contract, base.IsBare ∧ (ofTree s c).contract s kind =
      ((c.members.map (ofTree s)).filterMap (member? s (kind == .interface))).foldl Contract.add
        base := by
  rw [contract, ← contractBody?_ofTree]
  cases (ofTree s c).contractBody? with
  | none => exact ⟨_, ⟨rfl, rfl, rfl⟩, rfl⟩
  | some body => exact ⟨_, ⟨rfl, rfl, rfl⟩, rfl⟩

theorem functions_of_members {base : Contract} (hbase : base.IsBare) (inInterface : Bool)
    (ds : List ParseTree) :
    (((ds.map (ofTree s)).filterMap (member? s inInterface)).foldl Contract.add base).functions.map
        Function.lowering =
      (ds.filter ParseTree.isFunction).map fun d =>
        (s.spanOf d, d.body?.map (fun b => (ofTree s b).node), {}) := by
  rw [Contract.functions_foldl_add, functions_filterMap_member?, hbase.functions]
  rfl

theorem contract?_ofTree (c : ParseTree) :
    c.isContract = true ∧ (∃ kind, contract? s (ofTree s c) = some ((ofTree s c).contract s kind)) ∨
      c.isContract = false ∧ contract? s (ofTree s c) = none := by
  have hkind : (ofTree s c).kind = c.kind := congrArg ParseTree.kind (ofTree_tree c)
  rw [contract?, hkind]
  split
  case h_1 h => exact .inl ⟨by simp [ParseTree.isContract, h], _, rfl⟩
  case h_2 h => exact .inl ⟨by simp [ParseTree.isContract, h], _, rfl⟩
  case h_3 h => exact .inl ⟨by simp [ParseTree.isContract, h], _, rfl⟩
  case h_4 => exact .inr ⟨by simp_all [ParseTree.isContract], rfl⟩

theorem fileMembers_ofTree (t : ParseTree) :
    (ofTree s t).fileMembers s =
      ((t.content.filter fun c => !c.isContract).map (ofTree s)).filterMap (member? s false) := by
  rw [fileMembers, ofTree_parts, content_ofTree, List.filter_map]
  simp only [Function.comp_def, kind, ofTree_tree, ParseTree.isContract, Bool.not_or, bne]

/-- The contracts of a file: those it declares, and one more if it declares anything else. -/
theorem contracts_ofTree (t : ParseTree) :
    ∃ base : Contract, base.IsBare ∧ (ofTree s t).contracts s =
      (t.content.map (ofTree s)).filterMap (contract? s) ++
        (if (ofTree s t).fileMembers s = [] then []
          else [((ofTree s t).fileMembers s).foldl Contract.add base]) := by
  rw [contracts, ofTree_parts, content_ofTree]
  cases (ofTree s t).fileMembers s with
  | nil => exact ⟨{ name := "" }, ⟨rfl, rfl, rfl⟩, (List.append_nil _).symm⟩
  | cons m ms => exact ⟨_, ⟨rfl, rfl, rfl⟩, rfl⟩

/-- The functions of a file's contracts are those that the file declares, in order, each with the
span of its declaration and the lowered form of its body. -/
theorem functions_contracts (t : ParseTree) :
    ((ofTree s t).contracts s).flatMap (fun c => c.functions.map Function.lowering) =
      t.functionTrees.map fun d => (s.spanOf d, d.body?.map (fun b => (ofTree s b).node), {}) := by
  obtain ⟨base, hbase, he⟩ := contracts_ofTree (s := s) t
  have hdeclared : ∀ cs : List ParseTree,
      ((cs.map (ofTree s)).filterMap (contract? s)).flatMap
          (fun c => c.functions.map Function.lowering) =
        ((cs.filter ParseTree.isContract).flatMap fun c =>
          c.members.filter ParseTree.isFunction).map fun d =>
            (s.spanOf d, d.body?.map (fun b => (ofTree s b).node), {}) := by
    intro cs
    induction cs with
    | nil => rfl
    | cons c cs ih =>
      rw [List.map_cons, List.filterMap_cons, List.filter_cons]
      rcases contract?_ofTree (s := s) c with ⟨hc, kind, hcontract⟩ | ⟨hc, hcontract⟩
      · obtain ⟨base, hbase, hmembers⟩ := exists_contract (s := s) c kind
        rw [hcontract, if_pos hc, List.flatMap_cons, List.flatMap_cons, List.map_append,
          ← ih, hmembers, functions_of_members hbase]
      · rw [hcontract, hc]
        exact ih
  rw [he, List.flatMap_append, hdeclared, ParseTree.functionTrees, List.map_append]
  refine congrArg (_ ++ ·) ?_
  rw [← functions_of_members hbase false, ← fileMembers_ofTree]
  split
  · rename_i hnil
    rw [hnil, List.foldl_nil, hbase.functions]
    rfl
  · rw [List.flatMap_singleton]

/-- Every function of a file is lowered from a declaration, and its summary is not made yet. -/
theorem exists_functionTree {t : ParseTree} {c : Contract} (hc : c ∈ (ofTree s t).contracts s)
    {f : Function} (hf : f ∈ c.functions) :
    ∃ d ∈ t.functionTrees, f.body = d.body?.map (fun b => (ofTree s b).node) ∧ f.summary = {} := by
  have hmem : f.lowering ∈
      ((ofTree s t).contracts s).flatMap fun c => c.functions.map Function.lowering :=
    List.mem_flatMap.2 ⟨c, hc, List.mem_map_of_mem hf⟩
  rw [functions_contracts] at hmem
  obtain ⟨d, hd, he⟩ := List.mem_map.1 hmem
  simp only [Function.lowering, Prod.mk.injEq] at he
  exact ⟨d, hd, he.2.1.symm, he.2.2.symm⟩

section Code

theorem mem_parts_of_valuePart? {l p : Lowered} (h : l.valuePart? = some p) : p ∈ l.parts := by
  rw [valuePart?] at h
  cases hfield : l.field? "value" with
  | some q =>
    rw [hfield] at h
    cases h
    obtain ⟨i, -, hi⟩ := Option.bind_eq_some_iff.1 hfield
    exact List.mem_of_getElem? hi
  | none =>
    rw [hfield] at h
    have hmem := List.mem_of_mem_tail (List.mem_of_mem_head? h)
    exact (List.dropWhile_sublist _).subset hmem

/-- The code of a member is the lowered form of one of its children. -/
theorem exists_of_code? {d : ParseTree} {inInterface : Bool} {m : Member} {n : Node}
    (hm : member? s inInterface (ofTree s d) = some m) (hn : m.code? = some n) :
    ∃ x ∈ d.children, n = (ofTree s x).node := by
  have hfunction : ∀ kind b, ((ofTree s d).function s kind b).body = some n →
      ∃ x ∈ d.children, n = (ofTree s x).node := by
    intro kind b hbody
    have h := congrArg (·.2.1) (function_ofTree (s := s) d kind b)
    obtain ⟨x, hx, rfl⟩ := Option.map_eq_some_iff.1 (h.symm.trans hbody)
    exact ⟨x, ParseTree.mem_children_of_body? hx, rfl⟩
  have hpart : ∀ p ∈ (ofTree s d).parts, ∃ x ∈ d.children, p.node = (ofTree s x).node := by
    intro p hp
    rw [ofTree_parts] at hp
    obtain ⟨x, hx, rfl⟩ := List.mem_map.1 hp
    exact ⟨x, hx, rfl⟩
  have hvalue : (ofTree s d).valuePart?.map node = some n →
      ∃ x ∈ d.children, n = (ofTree s x).node := by
    intro h
    obtain ⟨p, hp, rfl⟩ := Option.map_eq_some_iff.1 h
    exact hpart p (mem_parts_of_valuePart? hp)
  rw [member?] at hm
  split at hm
  case h_1 => cases hm; exact hfunction _ _ hn
  case h_2 => cases hm; exact hfunction _ _ hn
  case h_3 => cases hm; exact hfunction _ _ hn
  case h_4 =>
    cases hm
    obtain ⟨p, hp, rfl⟩ := Option.map_eq_some_iff.1 hn
    exact hpart p (List.mem_of_find?_eq_some hp)
  case h_5 => cases hm; exact hvalue hn
  case h_6 => cases hm; exact hvalue hn
  case h_11 =>
    obtain ⟨u, -, rfl⟩ := Option.map_eq_some_iff.1 hm
    cases hn
  case h_12 => cases hm
  all_goals
    cases hm
    cases hn

theorem exists_of_members {base : Contract} (hbase : base.IsBare) {inInterface : Bool}
    {ds : List ParseTree} {n : Node}
    (hn : n ∈ (((ds.map (ofTree s)).filterMap (member? s inInterface)).foldl Contract.add
      base).trees.map Prod.snd) :
    ∃ d ∈ ds, ∃ x ∈ d.children, n = (ofTree s x).node := by
  rcases Contract.mem_trees_foldl_add hn with hn | ⟨m, hm, hn⟩
  · rw [hbase.trees] at hn
    cases hn
  · obtain ⟨l, hl, hm⟩ := List.mem_filterMap.1 hm
    obtain ⟨d, hd, rfl⟩ := List.mem_map.1 hl
    exact ⟨d, hd, exists_of_code? hm hn⟩

/-- Every body and initialiser of a file is the lowered form of a tree of the file. -/
theorem exists_of_mem_trees {t : ParseTree} {c : Contract} (hc : c ∈ (ofTree s t).contracts s)
    {code : (Scope → Scope) × Node} (hcode : code ∈ c.trees) :
    ∃ x ∈ t.subtrees, code.2 = (ofTree s x).node := by
  have hmem : code.2 ∈ c.trees.map Prod.snd := List.mem_map_of_mem hcode
  obtain ⟨base, hbase, he⟩ := contracts_ofTree (s := s) t
  rw [he] at hc
  rcases List.mem_append.1 hc with hc | hc
  · obtain ⟨l, hl, hcontract⟩ := List.mem_filterMap.1 hc
    obtain ⟨e, he, rfl⟩ := List.mem_map.1 hl
    rcases contract?_ofTree (s := s) e with ⟨-, kind, h⟩ | ⟨-, h⟩
    · cases hcontract.symm.trans h
      obtain ⟨base, hbase, hmembers⟩ := exists_contract (s := s) e kind
      rw [hmembers] at hmem
      obtain ⟨d, hd, x, hx, hn⟩ := exists_of_members hbase hmem
      have hx : x ∈ d.subtrees := ParseTree.mem_subtrees_of_child hx x.self_mem_subtrees
      exact ⟨x, ParseTree.mem_subtrees_of_child (t.content_subset he)
        (ParseTree.mem_subtrees_trans (ParseTree.mem_subtrees_of_mem_members hd) hx), hn⟩
    · rw [h] at hcontract
      cases hcontract
  · split at hc
    · cases hc
    · cases List.mem_singleton.1 hc
      rw [fileMembers_ofTree] at hmem
      obtain ⟨d, hd, x, hx, hn⟩ := exists_of_members hbase hmem
      have hx : x ∈ d.subtrees := ParseTree.mem_subtrees_of_child hx x.self_mem_subtrees
      exact ⟨x, ParseTree.mem_subtrees_of_child (t.content_subset (List.mem_filter.1 hd).1) hx, hn⟩

end Code

end Lowered

end ContractAtlas
