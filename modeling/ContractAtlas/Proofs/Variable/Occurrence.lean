import ContractAtlas.Proofs.Grammar.Shape
import ContractAtlas.Proofs.Program.Code
import ContractAtlas.Proofs.Variable.Sighting

/-! Every variable that occurs in a body is recorded once: the references are those to the names
that occur, the names that statements declare, and the parameters. -/
namespace ContractAtlas

/-- Whether statements that are children are read as statements, given whether the node itself is.
The parts of a declaration and of the forms with operands are expressions, whatever they look
like. -/
def NodeKind.readsParts (asStatement : Bool) : NodeKind → Bool
  | .declaration _ => !asStatement
  | .indexAccess | .memberAccess _ | .assignment _ | .update _ | .call _ => false
  | _ => true

/-- What a reference stands for: a variable that occurs somewhere, one that a statement declares, or
a parameter. -/
inductive Mention
  | occurs (name : String) (span : Span)
  | declares (reference : VariableReference)
  | parameter (reference : VariableReference)
deriving DecidableEq

def Sighting.mention (s : Sighting) : Mention :=
  if s.declares then .declares s.reference
  else if s.reference.path = .parameter then .parameter s.reference
  else .occurs s.reference.name s.reference.span

namespace Node

/-- Whether statements are read as statements below `ancestors`, a path from a statement. -/
def readsBelow (ancestors : List Node) : Bool :=
  ancestors.foldl (fun reads parent => parent.kind.readsParts (reads && parent.isStatement)) true

@[simp] theorem readsBelow_concat (ancestors : List Node) (parent : Node) :
    readsBelow (ancestors ++ [parent]) =
      parent.kind.readsParts (readsBelow ancestors && parent.isStatement) := by
  rw [readsBelow, List.foldl_concat, readsBelow]

namespace Visit

/-- The node is what a call calls. -/
def isCallee (v : Visit) : Bool := v.index == 0 && v.ancestors.getLast?.any Node.isCall

/-- The node is a statement and read as one. -/
def isRead (v : Visit) : Bool := readsBelow v.ancestors && v.node.isStatement

/-- The variable that occurs here, and where that is. -/
def occurring? (v : Visit) : Option (String × Span) :=
  if v.isCallee then none else v.node.identifier?.map fun name => (name, v.node.span)

/-- The references to the names that are declared here. -/
def declared (function : String) (v : Visit) : List VariableReference :=
  match v.node.kind with
  | .declaration names =>
    if v.isRead then
      names.map fun name =>
      (Sighting.make function name v.node.span v.node.text .direct .write true).reference
    else []
  | _ => []

def mentions (function : String) (v : Visit) : List Mention :=
  (v.occurring?.map fun x => .occurs x.1 x.2).toList ++ (v.declared function).map .declares

end Visit

variable {function : String} {statement : Text} {access : Access} {a : List Node} {i : Nat}

/-- What is read in a node below `ancestors`. -/
def seen (function : String) (ancestors : List Node) (statement : Text)
    (access : Access) (n : Node) :
    List Sighting :=
  if readsBelow ancestors && n.isStatement then sightings function n
  else expressionSighting function statement access n

/-- What is read in the node is what the visits of its tree mention. -/
def SeenOnce (function : String) (ancestors : List Node) (index : Nat) (n : Node) : Prop :=
  ∀ statement access, ((seen function ancestors statement access n).map Sighting.mention).Perm
    ((walkFrom ancestors index n).flatMap (Visit.mentions function))

theorem partSightings_eq_seen (h : readsBelow a = true) (ns : List Node) :
    partSightings function statement ns = ns.flatMap (seen function a statement .read) := by
  rw [partSightings_eq]
  refine congrArg ns.flatMap (funext fun n => ?_)
  rw [seen, h, Bool.true_and]

theorem expressionSightings_eq_seen (h : readsBelow a = false) (ns : List Node) :
    expressionSightings function statement access ns =
      ns.flatMap (seen function a statement access) := by
  rw [expressionSightings_eq]
  refine congrArg ns.flatMap (funext fun n => ?_)
  rw [seen, h, Bool.false_and, if_neg Bool.false_ne_true]

/-- Siblings are read once if each of them is, from its place on. -/
theorem map_mention_flatMap_seen {ns : List Node} (h : ∀ c ∈ ns, ∀ j ≥ i, SeenOnce function a j c) :
    ((ns.flatMap (seen function a statement access)).map Sighting.mention).Perm
      ((walkAll a i ns).flatMap (Visit.mentions function)) := by
  induction ns generalizing i with
  | nil => exact .nil
  | cons n ns ih =>
    rw [List.flatMap_cons, List.map_append, walkAll, List.flatMap_append]
    refine (h n List.mem_cons_self i (Nat.le_refl i) statement access).append
      (ih fun c hc j hj => ?_)
    exact h c (List.mem_cons_of_mem n hc) j (Nat.le_of_succ_le hj)

theorem map_mention_of_identifier {n : Node} {name : String} (h : n.identifier? = some name) :
    (expressionSighting function statement access n).map Sighting.mention =
      [.occurs name n.span] := by
  rcases n with ⟨kind, span, excerpt, children⟩
  cases kind with
  | identifier name' => cases h; rfl
  | _ => cases h

/-- For what an index mentions it is no matter whether its base is a name. -/
theorem map_mention_index (base : Node) (keys : List Node) (span : Span) (excerpt : Excerpt) :
    (expressionSighting function statement access ⟨.indexAccess, span, excerpt, base :: keys⟩).map
      Sighting.mention =
      (expressionSightings function statement .read keys).map Sighting.mention ++
        (expressionSighting function statement access base).map Sighting.mention := by
  cases hbase : base.identifier? with
  | some name =>
    rw [indexSighting_of_some hbase, List.map_append, map_mention_of_identifier hbase]; rfl
  | none => rw [indexSighting_of_none hbase, List.map_append]

theorem map_mention_member (object : Node) (member : String) (rest : List Node) (span : Span)
    (excerpt : Excerpt) :
    (expressionSighting function statement access
      ⟨.memberAccess member, span, excerpt, object :: rest⟩).map
        Sighting.mention =
      (expressionSighting function statement access object).map Sighting.mention := by
  cases hobject : object.identifier? with
  | some name => rw [memberSighting_of_some hobject, map_mention_of_identifier hobject]; rfl
  | none => rw [memberSighting_of_none hobject]

/-- The children of a node are read once where they stand, other than a name that is called. -/
def ChildrenSeenOnce (function : String) (ancestors : List Node) (n : Node) : Prop :=
  ∀ c ∈ n.children, ∀ j, (n.isCall = true → j = 0 → c.identifier? = none) →
    SeenOnce function (ancestors ++ [n]) j c

theorem ChildrenSeenOnce.parts {n : Node} (h : ChildrenSeenOnce function a n)
    (hcall : n.isCall = false) (hreads : n.kind.readsParts (readsBelow a && n.isStatement) = true) :
    ((partSightings function statement n.children).map Sighting.mention).Perm
      ((walkAll (a ++ [n]) 0 n.children).flatMap (Visit.mentions function)) := by
  rw [partSightings_eq_seen ((readsBelow_concat a n).trans hreads)]
  exact map_mention_flatMap_seen fun c hc j _ =>
    h c hc j fun hn => absurd hn (Bool.eq_false_iff.1 hcall)

theorem ChildrenSeenOnce.operands {n : Node} (h : ChildrenSeenOnce function a n)
    (hreads : n.kind.readsParts (readsBelow a && n.isStatement) = false) {ns : List Node}
    (hns : ns ⊆ n.children) (hplace : n.isCall = false ∨ 0 < i) :
    ((expressionSightings function statement access ns).map Sighting.mention).Perm
      ((walkAll (a ++ [n]) i ns).flatMap (Visit.mentions function)) := by
  rw [expressionSightings_eq_seen ((readsBelow_concat a n).trans hreads)]
  refine map_mention_flatMap_seen fun c hc j hj => h c (hns hc) j fun hn hzero => ?_
  rcases hplace with hcall | hi
  · exact absurd hn (Bool.eq_false_iff.1 hcall)
  · omega

theorem ChildrenSeenOnce.operand {n c : Node} (h : ChildrenSeenOnce function a n)
    (hreads : n.kind.readsParts (readsBelow a && n.isStatement) = false) (hc : c ∈ n.children)
    (hplace : n.isCall = false ∨ c.identifier? = none) :
    ((expressionSighting function statement access c).map Sighting.mention).Perm
      ((walkFrom (a ++ [n]) i c).flatMap (Visit.mentions function)) := by
  have hseen :=
    h c hc i (fun hn _ => hplace.resolve_left (Bool.eq_false_iff.not_left.2 hn)) statement access
  rw [seen, readsBelow_concat, hreads, Bool.false_and, if_neg Bool.false_ne_true] at hseen
  exact hseen

/-- All that a tree mentions is below its root, if that is no name and declares nothing. -/
theorem flatMap_mentions_walkFrom {n : Node} (hname : n.identifier? = none)
    (hdeclared : Visit.declared function ⟨n, a, i⟩ = []) :
    (walkFrom a i n).flatMap (Visit.mentions function) =
      (walkAll (a ++ [n]) 0 n.children).flatMap (Visit.mentions function) := by
  have hroot : Visit.mentions function ⟨n, a, i⟩ = [] := by
    rw [Visit.mentions, Visit.occurring?, hname, hdeclared, Option.map_none, ite_self]
    rfl
  rcases n with ⟨kind, span, excerpt, children⟩
  rw [walkFrom, List.flatMap_cons, hroot, List.nil_append]

/-- A name that is called mentions no variable. -/
theorem flatMap_mentions_callee {n c : Node} {name : String} (hc : c.AllFit) (hn : n.isCall = true)
    (hname : c.identifier? = some name) :
    (walkFrom (a ++ [n]) 0 c).flatMap (Visit.mentions function) = [] := by
  rcases c with ⟨kind, span, excerpt, children⟩
  cases kind with
  | identifier name' =>
    cases (hc.childless rfl : children = [])
    have hcallee : Visit.isCallee ⟨⟨.identifier name', span, excerpt, []⟩, a ++ [n], 0⟩ = true := by
      rw [Visit.isCallee, List.getLast?_concat]
      exact hn
    rw [walkFrom, walkAll, List.flatMap_singleton, Visit.mentions, Visit.occurring?, hcallee]
    rfl
  | _ => cases hname

/-- An expression is read once. -/
theorem expression_seenOnce {n : Node} (hn : n.AllFit) (hbelow : ChildrenSeenOnce function a n)
    (hcallee : Visit.isCallee ⟨n, a, i⟩ = true → n.identifier? = none)
    (hmode : Visit.isRead ⟨n, a, i⟩ = false) :
    ((expressionSighting function statement access n).map Sighting.mention).Perm
      ((walkFrom a i n).flatMap (Visit.mentions function)) := by
  rcases n with ⟨kind, span, excerpt, children⟩
  cases kind with
  | identifier name =>
    cases (hn.childless rfl : children = [])
    have hfree : Visit.isCallee ⟨⟨.identifier name, span, excerpt, []⟩, a, i⟩ = false :=
      Bool.eq_false_iff.2 fun h => Option.some_ne_none name (hcallee h)
    rw [walkFrom, walkAll, List.flatMap_singleton, Visit.mentions, Visit.occurring?, hfree]
    exact .refl _
  | indexAccess =>
    rw [flatMap_mentions_walkFrom rfl rfl]
    cases children with
    | nil => exact .nil
    | cons base keys =>
      -- the keys are read before the base, which stands before them
      rw [map_mention_index, walkAll, List.flatMap_append]
      refine List.perm_append_comm.trans (.append ?_ ?_)
      · exact hbelow.operand rfl List.mem_cons_self (.inl rfl)
      · exact hbelow.operands rfl (List.subset_cons_self base keys) (.inl rfl)
  | memberAccess member =>
    rw [flatMap_mentions_walkFrom rfl rfl]
    cases children with
    | nil => exact .nil
    | cons object rest =>
      have hrest : rest = [] := List.eq_nil_of_length_eq_zero
        (Nat.le_zero.1 (Nat.le_of_succ_le_succ (hn _ (self_mem_descendants _) 1 rfl)))
      subst hrest
      rw [map_mention_member, walkAll, walkAll, List.append_nil]
      exact hbelow.operand rfl List.mem_cons_self (.inl rfl)
  | assignment operator =>
    rw [flatMap_mentions_walkFrom rfl rfl]
    cases children with
    | nil => exact .nil
    | cons target values =>
      rw [expressionSighting, List.map_append, walkAll, List.flatMap_append]
      refine .append ?_ ?_
      · exact hbelow.operand rfl List.mem_cons_self (.inl rfl)
      · exact hbelow.operands rfl (List.subset_cons_self target values) (.inl rfl)
  | update operator =>
    rw [flatMap_mentions_walkFrom rfl rfl]
    exact hbelow.operands rfl (List.Subset.refl children) (.inl rfl)
  | call site =>
    rw [flatMap_mentions_walkFrom rfl rfl]
    cases children with
    | nil => exact .nil
    | cons callee arguments =>
      rw [expressionSighting, List.map_append, walkAll, List.flatMap_append]
      refine .append ?_ ?_
      · cases hname : callee.identifier? with
        | some name =>
          rw [Option.isSome_some, if_pos rfl,
            flatMap_mentions_callee (hn.child List.mem_cons_self) rfl hname]
          exact .nil
        | none => exact hbelow.operand rfl List.mem_cons_self (.inr hname)
      · exact hbelow.operands rfl (List.subset_cons_self callee arguments) (.inr Nat.one_pos)
  | literal | elementaryType | creation =>
    rw [flatMap_mentions_walkFrom rfl rfl, (hn.childless rfl : children = [])]
    exact .nil
  | declaration names =>
    have hdeclared : Visit.declared function ⟨⟨.declaration names, span, excerpt, children⟩, a, i⟩ =
        [] :=
      if_neg (Bool.eq_false_iff.1 hmode)
    rw [flatMap_mentions_walkFrom rfl hdeclared]
    exact hbelow.parts rfl (congrArg Bool.not hmode)
  | _ =>
    rw [flatMap_mentions_walkFrom rfl rfl]
    exact hbelow.parts rfl rfl

/-- A statement is read once. -/
theorem statement_seenOnce {n : Node} (hn : n.AllFit) (hbelow : ChildrenSeenOnce function a n)
    (hmode : Visit.isRead ⟨n, a, i⟩ = true) :
    ((sightings function n).map Sighting.mention).Perm
      ((walkFrom a i n).flatMap (Visit.mentions function)) := by
  have hstatement : n.isStatement = true := (Bool.and_eq_true_iff.1 hmode).2
  rcases n with ⟨kind, span, excerpt, children⟩
  cases kind with
  | declaration names =>
    have hdeclared : Visit.declared function ⟨⟨.declaration names, span, excerpt, children⟩, a, i⟩ =
        names.map fun name =>
        (Sighting.make function name span excerpt.text .direct .write true).reference :=
      if_pos hmode
    have hroot :
      (names.map fun name => Sighting.make function name span excerpt.text .direct .write true).map
          Sighting.mention =
        Visit.mentions function ⟨⟨.declaration names, span, excerpt, children⟩, a, i⟩ := by
      rw [Visit.mentions, hdeclared, Visit.occurring?, identifier?, Option.map_none,
        ite_self, List.map_map, List.map_map]
      rfl
    rw [sightings, List.map_append, hroot, walkFrom, List.flatMap_cons]
    refine .append_left _ ?_
    exact hbelow.operands (congrArg Bool.not hmode) (List.Subset.refl children) (.inl rfl)
  | assembly =>
    rw [flatMap_mentions_walkFrom rfl rfl, (hn.childless rfl : children = [])]
    exact .nil
  | identifier | literal | elementaryType | creation | indexAccess | memberAccess | assignment
  | update | call =>
    cases hstatement
  | _ =>
    rw [flatMap_mentions_walkFrom rfl rfl]
    exact hbelow.parts rfl rfl

/-- Every tree of the right shape is read once, unless it is a name that is called. -/
theorem seenOnce {n : Node} (hn : n.AllFit)
    (hcallee : Visit.isCallee ⟨n, a, i⟩ = true → n.identifier? = none) :
    SeenOnce function a i n := by
  induction n generalizing a i with
  | node kind span excerpt children ih =>
    have hbelow : ChildrenSeenOnce function a ⟨kind, span, excerpt, children⟩ := by
      intro c hc j hname
      refine ih c hc (hn.child hc) fun h => ?_
      rw [Visit.isCallee, List.getLast?_concat] at h
      exact hname (Bool.and_eq_true_iff.1 h).2 (eq_of_beq (Bool.and_eq_true_iff.1 h).1)
    intro statement access
    -- a statement below an operand is read as an expression, so the path decides
    cases hmode : Visit.isRead ⟨⟨kind, span, excerpt, children⟩, a, i⟩ with
    | true =>
      have hseen : seen function a statement access ⟨kind, span, excerpt, children⟩ =
          sightings function ⟨kind, span, excerpt, children⟩ := if_pos hmode
      rw [hseen]
      exact statement_seenOnce hn hbelow hmode
    | false =>
      have hseen : seen function a statement access ⟨kind, span, excerpt, children⟩ =
          expressionSighting function statement access ⟨kind, span, excerpt, children⟩ :=
        if_neg (Bool.eq_false_iff.1 hmode)
      rw [hseen]
      exact expression_seenOnce hn hbelow hcallee hmode

end Node

namespace Function

/-- What a function mentions: its named parameters, and what the visits of its body do. -/
def mentions (f : Function) : List Mention :=
  f.parameterNames.map (fun name =>
    .parameter (Sighting.make f.name name f.span f.source .parameter .read false).reference) ++
  ((f.body.map Node.walk).getD []).flatMap (Node.Visit.mentions f.name)

/-- Whatever is loaded, the references of a function are one for each of its named parameters, one
for each name in its body that is not what a call calls, at the place of that name, and one write
for each name that a declaration read as a statement declares. -/
theorem sightings_perm_mentions {loads : List (Option Settings × SourceUnit)} {f : Function}
    (hf : f ∈ (Program.enterAll {} loads).functions) :
    (f.sightings.map Sighting.mention).Perm f.mentions := by
  have hbodies : (Program.enterAll {} loads).AllBodies
      fun n => n.AllFit ∧ n.isStatement = true := by
    refine .enterAll (fun s x hx => ?_) (fun settings s n hn => ?_) loads
    · exact ⟨Lowered.allFit_ofTree x, Lowered.isStatement_of_isBody hx⟩
    · exact ⟨hn.1.classifyCalls settings s none,
        (n.isStatement_classifyCalls settings s none).trans hn.2⟩
  rw [sightings, List.map_append, List.map_map, mentions]
  refine .append_left _ ?_
  cases hbody : f.body with
  | none => exact .nil
  | some body =>
    obtain ⟨hfit, hstatement⟩ := hbodies f hf body hbody
    have hread : Node.seen f.name [] [] .read body = body.sightings f.name := if_pos hstatement
    have hseen : Node.SeenOnce f.name [] 0 body :=
      Node.seenOnce hfit fun h => absurd h Bool.false_ne_true
    have hperm := hseen [] .read
    rw [hread] at hperm
    exact hperm

end Function

namespace Sample

/-- A function that reads an element at its parameter into a new variable and passes that on. -/
def recording : SourceUnit where
  path := "R.sol"
  text := "contract C \x7b function f(uint p) public \x7b uint x = m[p]; g(x); \x7d \x7d".toList
  tree :=
    let parameter := form "parameter" 24 30
      [form "type_name" 24 28 [form "primitive_type" 24 28 [token "uint" 24 28]],
       form "identifier" 29 30]
      [("name", 1), ("type", 0)]
    let element := form "array_access" 50 54
      [form "expression" 50 51 [form "identifier" 50 51], token "[" 51 52,
        form "expression" 52 53 [form "identifier" 52 53], token "]" 53 54]
    let declaration := form "variable_declaration_statement" 41 55
      [form "variable_declaration" 41 47
          [form "type_name" 41 45 [form "primitive_type" 41 45 [token "uint" 41 45]],
           form "identifier" 46 47]
          [("name", 1), ("type", 0)],
        token "=" 48 49, form "expression" 50 54 [element], token ";" 54 55]
      [("value", 2)]
    let call := form "call_expression" 56 60
      [form "expression" 56 57 [form "identifier" 56 57], token "(" 57 58,
        form "call_argument" 58 59 [form "expression" 58 59 [form "identifier" 58 59]],
        token ")" 59 60]
      [("function", 0)]
    let function := form "function_definition" 13 63
      [token "function" 13 21, form "identifier" 22 23, token "(" 23 24, parameter, token ")" 30 31,
        form "visibility" 32 38 [token "public" 32 38],
        form "function_body" 39 63
          [token "\x7b" 39 40, form "statement" 41 55 [declaration],
            form "statement" 56 61
              [form "expression_statement" 56 61 [form "expression" 56 60 [call], token ";" 60 61]],
            token "\x7d" 62 63]]
      [("body", 6), ("name", 1)]
    form "source_file" 0 65 [form "contract_declaration" 0 65
      [token "contract" 0 8, form "identifier" 9 10,
        form "contract_body" 11 65 [token "\x7b" 11 12, function, token "\x7d" 64 65]]
      [("body", 2), ("name", 1)]]

end Sample

namespace Function

/-- The key is read before the variable that it is a key of, and what is called is not read. -/
theorem sightings_perm_mentions_sample :
    ∃ f ∈ (Program.enterAll {} [(some {}, Sample.recording)]).functions,
      f.sightings.map (fun s => s.reference.name) = ["p", "x", "p", "m", "x"] ∧
      (f.sightings.map Sighting.mention).Perm f.mentions := by
  have hrun : ∃ f ∈ (Program.enterAll {} [(some {}, Sample.recording)]).functions,
      f.sightings.map (fun s => s.reference.name) = ["p", "x", "p", "m", "x"] := by decide +kernel
  obtain ⟨f, hf, hnames⟩ := hrun
  exact ⟨f, hf, hnames, sightings_perm_mentions hf⟩

end Function

end ContractAtlas
