import ContractAtlas.Proofs.Program.Numbering

/-! Scopes in a growing program. Contracts that come later add inherited functions and attached
library functions to the scopes of earlier ones and take nothing away, so a call of earlier code can
cease to be external and never becomes external. -/
namespace ContractAtlas

namespace Program
variable {p q : Program}

/-- `q` has the files and contracts of `p` before its own, and finds those of `p` first by name. -/
structure Extends (p q : Program) : Prop where
  files : p.files <+: q.files
  contracts : p.contracts <+: q.contracts
  first : ∀ name i, (p.byName.lookup name).bind List.head? = some i →
    (q.byName.lookup name).bind List.head? = some i

theorem extends_extended (p : Program) (u : SourceUnit) (imports : List Import)
    (contracts : List Contract) : p.Extends (p.extended u imports contracts) where
  files := List.prefix_append _ _
  contracts := List.prefix_append _ _
  first name i hi := by
    have hhead : ∀ ids : Option (List Nat), ids.bind List.head? = (ids.getD []).head? :=
      fun ids => by
      cases ids <;> rfl
    rw [hhead] at hi ⊢
    rw [extended, Contract.lookup_enterNames, List.head?_append, hi, Option.some_or]

theorem contract?_mono (h : p.Extends q) {i : Nat} {c : Contract} (hc : p.contract? i = some c) :
    q.contract? i = some c := by
  obtain ⟨later, hl⟩ := h.contracts
  rw [contract?] at hc ⊢
  rw [← hl, List.getElem?_append_left (List.getElem?_eq_some_iff.1 hc).1, hc]

theorem contractNamed?_mono (h : p.Extends q) {name : String} {c : Contract}
    (hc : p.contractNamed? name = some c) : q.contractNamed? name = some c := by
  obtain ⟨i, hi, hc⟩ := Option.bind_eq_some_iff.1 hc
  exact Option.bind_eq_some_iff.2 ⟨i, h.first name i hi, contract?_mono h hc⟩

theorem baseIds_mono (h : p.Extends q) {i j : Nat}
    (hj : j ∈ p.baseIds i) : j ∈ q.baseIds i := by
  rw [baseIds] at hj ⊢
  cases hc : p.contract? i with
  | none => rw [hc] at hj; cases hj
  | some c =>
    rw [hc] at hj
    rw [contract?_mono h hc]
    obtain ⟨name, hn, hb⟩ := List.mem_filterMap.1 hj
    obtain ⟨d, hd, rfl⟩ := Option.map_eq_some_iff.1 hb
    exact List.mem_filterMap.2 ⟨name, hn, by rw [contractNamed?_mono h hd, Option.map_some]⟩

/-- Ancestors stay ancestors when contracts are appended. -/
theorem ancestors_mono (h : p.Extends q) {i j : Nat} (hj : j ∈ p.ancestors i) :
    j ∈ q.ancestors i := by
  obtain ⟨hne, hpath⟩ := mem_ancestors_iff.1 hj
  exact mem_ancestors_iff.2 ⟨hne, Relation.TransGen.mono (fun _ _ => baseIds_mono h) _ _ hpath⟩

end Program

namespace Scope

/-- `t` is the scope of the same code in a larger program: it has the same own names and variables,
and at least the inherited and attached functions. -/
structure Grows (s t : Scope) : Prop where
  ownFunctions : t.ownFunctions = s.ownFunctions
  ownVariables : t.ownVariables = s.ownVariables
  locals : t.locals = s.locals
  inherited : ∀ name, s.inheritedFunctions.contains name = true →
    t.inheritedFunctions.contains name = true
  attached : ∀ name, s.attachedFunctions.contains name = true →
    t.attachedFunctions.contains name = true

theorem grows_assemble (id : Nat) (c : Contract)
    {ancestors ancestors' libraries libraries' : List Contract} (ha : ancestors ⊆ ancestors')
    (hl : libraries ⊆ libraries') :
    Grows (assemble id c ancestors libraries) (assemble id c ancestors' libraries') := by
  refine ⟨rfl, rfl, rfl, fun name hn => ?_, fun name hn => ?_⟩
  · simp only [assemble, NameSet.contains_ofList, List.contains_iff_mem, List.mem_map,
      List.mem_flatMap] at hn ⊢
    obtain ⟨f, ⟨d, hd, hf⟩, he⟩ := hn
    exact ⟨f, ⟨d, ha hd, hf⟩, he⟩
  · simp only [assemble, NameSet.contains_ofList, List.contains_iff_mem, List.mem_map,
      List.mem_flatMap, List.mem_filter] at hn ⊢
    obtain ⟨f, ⟨l, ⟨hm, hattached⟩, hf⟩, he⟩ := hn
    exact ⟨f, ⟨l, ⟨hl hm, hattached⟩, hf⟩, he⟩

theorem grows_ofContract {p q : Program} (h : p.Extends q) {i : Nat} {c : Contract}
    (hc : p.contract? i = some c) : Grows (ofContract p i) (ofContract q i) := by
  rw [ofContract_of_some hc, ofContract_of_some (Program.contract?_mono h hc)]
  apply grows_assemble
  · intro d hd
    obtain ⟨j, hj, hd⟩ := List.mem_filterMap.1 hd
    exact List.mem_filterMap.2 ⟨j, Program.ancestors_mono h hj, Program.contract?_mono h hd⟩
  · intro l hm
    obtain ⟨hm, hlibrary⟩ := List.mem_filter.1 hm
    exact List.mem_filter.2 ⟨h.contracts.subset hm, hlibrary⟩

variable {s t : Scope}

theorem Grows.within (h : Grows s t) (f : Function) : Grows (s.within f) (t.within f) :=
  ⟨h.ownFunctions, h.ownVariables, rfl, h.inherited, h.attached⟩

theorem Grows.knowsFunction (h : Grows s t) {name : String} (hn : s.knowsFunction name = true) :
    t.knowsFunction name = true := by
  rw [Scope.knowsFunction, Bool.or_eq_true] at hn ⊢
  exact hn.imp (fun ho => h.ownFunctions ▸ ho) (h.inherited name)

theorem Grows.isExternalTarget (h : Grows s t) (target : String) :
    t.isExternalTarget target = s.isExternalTarget target := by
  rw [Scope.isExternalTarget, Scope.isExternalTarget, knowsVariable, knowsVariable, h.ownVariables,
    h.locals]

/-- What remains under a wider ground for refusal remains under a narrower one. -/
private theorem some_of_refusal {α : Type} {a b : Prop} [Decidable a] [Decidable b] (hab : a → b)
    {x : Option α} {y : α} (h : (if b then none else x) = some y) :
    (if a then none else x) = some y := by
  obtain ⟨hb, hx⟩ := Option.ite_none_left_eq_some.1 h
  exact Option.ite_none_left_eq_some.2 ⟨fun ha => hb (hab ha), hx⟩

/-- A call that is external in the larger program was external before, under the same tag. -/
theorem Grows.externalTag? (h : Grows s t) {settings : Settings} {n : Node} {tag : String}
    (ht : n.externalTag? settings t = some tag) : n.externalTag? settings s = some tag := by
  simp only [Node.externalTag?, Option.bind_eq_bind, Option.bind_eq_some_iff] at ht ⊢
  obtain ⟨site, hsite, name, hname, ht⟩ := ht
  refine ⟨site, hsite, name, hname, ?_⟩
  by_cases hraw : isRawCall name = true
  · rw [if_pos hraw] at ht ⊢
    exact ht
  rw [if_neg hraw] at ht ⊢
  cases htarget : site.callee.target? with
  | none =>
    simp only [htarget] at ht ⊢
    exact some_of_refusal h.knowsFunction ht
  | some target =>
    simp only [htarget, h.isExternalTarget, Bool.and_eq_true] at ht ⊢
    obtain ⟨hthis, ht⟩ := Option.ite_none_left_eq_some.1 ht
    rw [if_neg hthis]
    exact some_of_refusal (fun ha => ⟨h.attached name ha.1, ha.2⟩) ht

theorem Grows.externalTargets (h : Grows s t) (settings : Settings) (f : Function) {tag : String}
    (ht : (f.summarize settings t).externalTargets.contains tag = true) :
    (f.summarize settings s).externalTargets.contains tag = true := by
  rw [Function.summarize] at ht ⊢
  cases hb : f.body with
  | none => rw [hb] at ht; exact ht
  | some body =>
    rw [hb] at ht
    simp only [CallSummary.ofTags, NameSet.contains_ofList, List.contains_iff_mem,
      List.mem_filterMap] at ht ⊢
    obtain ⟨call, hcall, htag⟩ := ht
    exact ⟨call, hcall, h.externalTag? htag⟩

end Scope

namespace CallSummary

/-- Each flag is set if and only if there is a tag behind it. -/
structure Consistent (s : CallSummary) : Prop where
  external : s.hasExternalCalls = true ↔ ∃ tag, s.externalTargets.contains tag = true
  transfers : s.hasTransfers = true ↔ ∃ tag, s.transfers.contains tag = true

theorem consistent_ofTags (externalTargets transfers : NameSet) :
    (ofTags externalTargets transfers).Consistent :=
  ⟨NameSet.not_isEmpty_iff, NameSet.not_isEmpty_iff⟩

theorem consistent_default : Consistent {} := consistent_ofTags ∅ ∅

end CallSummary

theorem Function.consistent_summarize (f : Function) (settings : Settings) (s : Scope) :
    (f.summarize settings s).Consistent := by
  rw [Function.summarize]
  split
  · exact CallSummary.consistent_ofTags _ _
  · exact CallSummary.consistent_default

namespace Program
variable {settings : Settings}

/-- After an analysis every function has the summary that its present form gives. -/
theorem summary_analyze {p : Program} (hp : p.Numbered) {i j : Nat} {c : Contract} {f : Function}
    (hc : (p.analyze settings).contracts[i]? = some c) (hf : c.functions[j]? = some f) :
    f.summary = f.summarize settings ((Scope.ofContract p i).within f) := by
  rw [analyze, List.getElem?_map] at hc
  obtain ⟨c₀, hc₀, rfl⟩ := Option.map_eq_some_iff.1 hc
  rw [Contract.analyze, List.getElem?_map] at hf
  obtain ⟨f₀, -, rfl⟩ := Option.map_eq_some_iff.1 hf
  rw [hp i c₀ hc₀, ← Function.summarize_unanalysed, ← Function.within_unanalysed,
    Function.unanalysed_analyze, Function.summarize_unanalysed, Function.within_unanalysed]
  rfl

/-- Loading a file leaves every earlier function in place, and what that function calls externally
afterwards it called externally before. -/
theorem externalTargets_load_subset {q p' : Program} {u : SourceUnit} {ids : List Nat}
    (hq : q.Built) (hload : (q.analyze settings).load settings u = .ok (ids, p'))
    {i j : Nat} {c : Contract} {f : Function}
    (hc : (q.analyze settings).contracts[i]? = some c) (hf : c.functions[j]? = some f) :
    ∃ c' f', p'.contracts[i]? = some c' ∧ c'.functions[j]? = some f' ∧
      f'.unanalysed = f.unanalysed ∧
      (∀ tag, f'.summary.externalTargets.contains tag = true →
        f.summary.externalTargets.contains tag = true) ∧
      (f'.summary.hasExternalCalls = true → f.summary.hasExternalCalls = true) := by
  obtain ⟨r, hr, rfl⟩ := load_ok hload
  have hextends : (q.analyze settings).Extends r := by
    obtain ⟨imports, contracts, -, rfl⟩ := register_ok hr
    exact extends_extended _ u imports contracts
  have hp := hq.numbered.analyze settings
  have hc' := contract?_mono hextends hc
  have hnumber : c.id = i := hp i c hc
  -- Both summaries are those of `f`, in the scope before the load and in the one after it.
  have hbefore : f.summary =
      f.summarize settings ((Scope.ofContract (q.analyze settings) i).within f) := by
    rw [Scope.ofContract_unanalysed_congr (unanalysed_analyze q)]
    exact summary_analyze hq.numbered hc hf
  have hgrows := (Scope.grows_ofContract hextends hc).within f
  have hsubset : ∀ tag,
      (f.summarize settings ((Scope.ofContract r i).within f)).externalTargets.contains tag = true →
        f.summary.externalTargets.contains tag = true := fun tag ht => by
    rw [hbefore]
    exact hgrows.externalTargets settings f ht
  refine ⟨c.analyze settings (Scope.ofContract r i),
    f.analyze settings (Scope.ofContract r i), ?_, ?_, Function.unanalysed_analyze f, hsubset,
    fun hcalls => ?_⟩
  · rw [analyze, List.getElem?_map, ← contract?, hc', Option.map_some, hnumber]
  · rw [Contract.analyze, List.getElem?_map, hf, Option.map_some]
  · obtain ⟨tag, htag⟩ := (f.consistent_summarize settings _).external.1 hcalls
    have hconsistent : f.summary.Consistent := hbefore ▸ f.consistent_summarize settings _
    exact hconsistent.external.2 ⟨tag, hsubset tag htag⟩

theorem externalTargets_load_subset_sample :
    let settings : Settings := { knownExternalFunctions := .ofList ["f"] }
    ∃ (q p' : Program) (ids : List Nat) (c : Contract) (f : Function), q.Built ∧
      (q.analyze settings).load settings Sample.base = .ok (ids, p') ∧
      (q.analyze settings).contracts[0]? = some c ∧ c.functions[0]? = some f ∧
      f.summary.hasExternalCalls = true ∧
      ∃ c' f', p'.contracts[0]? = some c' ∧ c'.functions[0]? = some f' ∧
        ∀ tag, f'.summary.externalTargets.contains tag = true →
          f.summary.externalTargets.contains tag = true := by
  intro settings
  have hrun : ∃ q ∈ (({} : Program).register Sample.derived).toOption,
      ∃ p' ∈ ((q.2.analyze settings).load settings Sample.base).toOption,
      ∃ c ∈ (q.2.analyze settings).contracts[0]?, ∃ f ∈ c.functions[0]?,
        f.summary.hasExternalCalls = true := by decide +kernel
  obtain ⟨q, hq, p', hp', c, hc, f, hf, hcalls⟩ := hrun
  have hbuilt : q.2.Built := .register .empty (Sample.eq_ok_of_mem_toOption hq)
  have hload := Sample.eq_ok_of_mem_toOption hp'
  obtain ⟨c', f', hc', hf', -, hsubset, -⟩ := externalTargets_load_subset hbuilt hload hc hf
  exact ⟨q.2, p'.2, p'.1, c, f, hbuilt, hload, hc, hf, hcalls, c', f', hc', hf', hsubset⟩

end Program

end ContractAtlas
