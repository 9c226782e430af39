import ContractAtlas.Proofs.Symbol.Lookup
import ContractAtlas.Symbol.Reference

/-! Reports on a target. A report is there exactly when something is declared that the target can
mean, and then each of its parts is what the search for that part alone finds. -/
namespace ContractAtlas

namespace QualifiedName
variable {target : String} {q : QualifiedName}

/-- The same name as private counterparts bear it. -/
def hidden (q : QualifiedName) : QualifiedName := { q with name := "_" ++ q.name }

/-- The name as a target. -/
def written (q : QualifiedName) : String :=
  match q.contract with
  | some contract => contract ++ "." ++ q.name
  | none => q.name

theorem underscored_eq (q : QualifiedName) : q.underscored = q.hidden.written := by
  rcases q with ⟨_ | contract, name⟩
  · rfl
  · have hdot : "._" = "." ++ "_" := rfl
    change contract ++ "._" ++ name = contract ++ "." ++ ("_" ++ name)
    simp only [hdot, String.append_assoc]

theorem hidden_ne (q : QualifiedName) : q.hidden ≠ q := by
  intro he
  have hlength := congrArg (fun q : QualifiedName => q.name.toList.length) he
  rw [hidden, String.toList_append, List.length_append] at hlength
  change 1 + _ = _ at hlength
  omega

private theorem toList_underscore (name : String) : ("_" ++ name).toList = '_' :: name.toList :=
  String.toList_append

private theorem trimEnd_underscore {t : Text} (h : t.trimEnd = t) :
    Text.trimEnd ('_' :: t) = '_' :: t :=
  (Text.dropEndWhile_append_cons (by decide) [] t).trans (congrArg ('_' :: ·) h)

private theorem part_underscore {name : String} (h : '.' ∉ name.toList) :
    "_" ++ name ≠ "" ∧ '.' ∉ ("_" ++ name).toList := by
  rw [toList_underscore, List.mem_cons, not_or]
  refine ⟨fun he => ?_, by decide, h⟩
  have hnil := congrArg String.toList he
  rw [toList_underscore] at hnil
  cases hnil

/-- A target that spells a name can be turned into one that spells the private counterpart. No white
space that was trimmed away comes back. -/
theorem Spells.hidden (h : Spells target q) : Spells q.hidden.written q.hidden := by
  have hstart := Text.head?_trim target.toList
  have hlast := h.trimEnd_name
  cases h with
  | @bare name hname h =>
    refine .bare (part_underscore hname.2) ?_
    change Text.trim ("_" ++ name).toList = _
    rw [toList_underscore]
    exact Text.trim_of_ends rfl (trimEnd_underscore hlast)
  | @qualified contract name hcontract hname h =>
    have hne : contract.toList ≠ [] := fun he => hcontract.1 (String.toList_inj.1 he)
    rw [h, List.head?_append_of_ne_nil _ hne] at hstart
    refine .qualified hcontract (part_underscore hname.2) ?_
    change Text.trim (contract ++ "." ++ ("_" ++ name)).toList = _
    have hwritten : (contract ++ "." ++ ("_" ++ name)).toList =
        contract.toList ++ '.' :: '_' :: name.toList := by
      rw [String.toList_append, String.toList_append, toList_underscore, List.append_assoc]
      rfl
    rw [hwritten, toList_underscore]
    refine Text.trim_of_ends ?_ ?_
    · rw [List.head?_append_of_ne_nil _ hne]
      exact hstart
    · rw [Text.trimEnd, Text.dropEndWhile_append_cons (by decide)]
      exact congrArg (contract.toList ++ '.' :: ·) (trimEnd_underscore hlast)

/-- What a name can mean, in the order in which the meanings are tried. In place of a variable there
may be a function that reads it or a private counterpart, in place of a function the variable that
it reads. -/
def meanings (q : QualifiedName) (kind : SymbolKind) : List (QualifiedName × SymbolKind) :=
  (q, kind) ::
    match kind with
    | .stateVariable => [(q, .function), (q.hidden, .stateVariable)]
    | .function => [(q, .stateVariable)]
    | _ => []

/-- How a meaning of a target is spelled: as the target, unless it is another name. -/
def spelling (q : QualifiedName) (target : String) (meaning : QualifiedName) : String :=
  if meaning = q then target else meaning.written

theorem spelling_self (q : QualifiedName) (target : String) : q.spelling target q = target :=
  if_pos rfl

theorem spelling_hidden (q : QualifiedName) (target : String) :
    q.spelling target q.hidden = q.underscored :=
  (if_neg q.hidden_ne).trans q.underscored_eq.symm

/-- All meanings are names that can be read again. -/
theorem Spells.meaning (hq : Spells target q) {kind : SymbolKind} {m : QualifiedName × SymbolKind}
    (hm : m ∈ q.meanings kind) : Spells (q.spelling target m.1) m.1 := by
  have hname : m.1 = q ∨ m.1 = q.hidden := by
    cases kind <;> simp only [meanings, List.mem_cons, List.not_mem_nil, or_false] at hm
    case stateVariable => rcases hm with rfl | rfl | rfl <;> simp
    case function => rcases hm with rfl | rfl <;> simp
    all_goals exact .inl (congrArg Prod.fst hm)
  rcases hname with he | he
  · rw [he, spelling_self]
    exact hq
  · rw [he, spelling, if_neg q.hidden_ne]
    exact hq.hidden

/-- The texts that are tried for a target spell its meanings. -/
theorem tried_eq (q : QualifiedName) (target : String) (kind : SymbolKind) :
    (target, kind) :: Program.fallbacks q target kind =
      (q.meanings kind).map fun m => (q.spelling target m.1, m.2) := by
  cases kind <;> simp [Program.fallbacks, meanings, spelling_self, spelling_hidden]

end QualifiedName

namespace Program
variable {p : Program} {settings : Settings} {query : ReferenceQuery} {target : String}
  {q : QualifiedName} {kind : SymbolKind}

theorem declares_iff (hq : QualifiedName.Spells target q) :
    p.declares target kind = true ↔ p.Declared (q, kind) := by
  rw [declares, QualifiedName.ofText?_eq_some_iff.2 hq, declared_iff, Bool.not_eq_true',
    List.isEmpty_eq_false_iff]

/-- `m` is the first meaning of the query's target for which something is declared. -/
def FirstMeaning (p : Program) (query : ReferenceQuery) (q : QualifiedName)
    (m : QualifiedName × SymbolKind) : Prop :=
  QualifiedName.Spells query.target q ∧ p.Declared m ∧
    ∃ before after, q.meanings query.kind = before ++ m :: after ∧ ∀ m' ∈ before, ¬ p.Declared m'

/-- A target is taken to mean the first of its meanings for which something is declared. -/
theorem resolve?_eq (hq : QualifiedName.Spells target q) :
    p.resolve? target kind = ((q.meanings kind).find? fun m =>
      p.declares (q.spelling target m.1) m.2).map fun m => (q.spelling target m.1, m.2) := by
  rw [resolve?, QualifiedName.ofText?_eq_some_iff.2 hq]
  change List.find? _ _ = _
  rw [QualifiedName.tried_eq, List.find?_map]
  rfl

theorem exists_firstMeaning {resolved : String × SymbolKind}
    (h : p.resolve? query.target query.kind = some resolved) :
    ∃ q m, p.FirstMeaning query q m ∧ resolved = (q.spelling query.target m.1, m.2) ∧
      QualifiedName.Spells resolved.1 m.1 := by
  obtain ⟨q, hname, -⟩ := Option.bind_eq_some_iff.1 h
  have hq := QualifiedName.ofText?_eq_some_iff.1 hname
  rw [resolve?_eq hq] at h
  obtain ⟨m, hfind, rfl⟩ := Option.map_eq_some_iff.1 h
  obtain ⟨hm, before, after, hall, hbefore⟩ := List.find?_eq_some_iff_append.1 hfind
  have hmem : m ∈ q.meanings query.kind := List.mem_of_find?_eq_some hfind
  refine ⟨q, m, ⟨hq, (declares_iff (hq.meaning hmem)).1 hm, before, after, hall, ?_⟩, rfl,
    hq.meaning hmem⟩
  intro m' hm' hdeclared
  have hmem' : m' ∈ q.meanings query.kind := hall ▸ List.mem_append_left _ hm'
  have hrefused := hbefore m' hm'
  rw [(declares_iff (hq.meaning hmem')).2 hdeclared] at hrefused
  cases hrefused

theorem isSome_resolve?_iff : (p.resolve? target kind).isSome = true ↔
    ∃ q, QualifiedName.Spells target q ∧ ∃ m ∈ q.meanings kind, p.Declared m := by
  constructor
  · intro h
    obtain ⟨q, hname, -⟩ := Option.bind_eq_some_iff.1 (Option.eq_some_of_isSome h)
    have hq := QualifiedName.ofText?_eq_some_iff.1 hname
    rw [resolve?_eq hq, Option.isSome_map, List.find?_isSome] at h
    obtain ⟨m, hm, hdeclares⟩ := h
    exact ⟨q, hq, m, hm, (declares_iff (hq.meaning hm)).1 hdeclares⟩
  · rintro ⟨q, hq, m, hm, hdeclared⟩
    rw [resolve?_eq hq, Option.isSome_map, List.find?_isSome]
    exact ⟨m, hm, (declares_iff (hq.meaning hm)).2 hdeclared⟩

theorem exists_callChains (hq : QualifiedName.Spells target q) (hd : p.Declared (q, .function))
    (maxDepth : Nat) : ∃ found, p.callChains target maxDepth = .ok found := by
  obtain ⟨d, hd⟩ := List.exists_mem_of_ne_nil _ (declared_iff.1 hd)
  have hfunction : d.function.isSome = true := by
    obtain ⟨c, -, hd⟩ := List.mem_flatMap.1 hd
    obtain ⟨f, -, rfl⟩ := List.mem_map.1 (List.mem_filter.1 hd).1
    rfl
  obtain ⟨f, hf⟩ := Option.isSome_iff_exists.1 (List.findSome?_isSome_iff.2 ⟨d, hd, hfunction⟩)
  simp only [callChains, QualifiedName.ofText?_eq_some_iff.2 hq, hf]
  exact ⟨_, rfl⟩

theorem exists_definitions [SearchEngine] (hq : QualifiedName.Spells target q)
    (hd : p.Declared (q, kind)) : ∃ found, p.definitions target kind = .ok found := by
  obtain ⟨d, hd, hmeans⟩ := hd
  exact (p.exists_definitionsWithin_iff {} target kind).2 ⟨q, hq, d, hd, hmeans, rfl⟩

end Program

section Reports
variable [SearchEngine]

/-- Each part that the query asks for is what the search for it finds under the resolved name and
kind, with the filters, the direction and the depth of the query. The other parts are empty. -/
structure ReferenceReport.Assembled (p : Program) (settings : Settings) (query : ReferenceQuery)
    (report : ReferenceReport) : Prop where
  definitions : report.definitions =
    if query.scope = .everything ∨ query.scope = .definitions then
      p.definitionsFound query.filters report.resolvedAs.1 report.resolvedAs.2
    else []
  usages :
    if query.scope = .everything ∨ query.scope = .usages then
      p.usages settings report.resolvedAs.1 report.resolvedAs.2 query.direction query.filters =
        .ok ⟨report.usages, report.truncated⟩
    else report.usages = [] ∧ report.truncated = false
  chains :
    if query.withCallChains = true ∧ report.resolvedAs.2 = .function then
      p.callChains report.resolvedAs.1 query.maxDepth.toNat =
        .ok ⟨report.chains, report.depthReached⟩
    else report.chains = [] ∧ report.depthReached = false

namespace Program
variable {p : Program} {settings : Settings} {query : ReferenceQuery}

/-- What is reported of a resolved target. -/
theorem assembled_of_references {q : QualifiedName} {target : String} {kind : SymbolKind}
    {report : ReferenceReport} (hresolve : p.resolve? query.target query.kind = some (target, kind))
    (hq : QualifiedName.Spells target q) (hd : p.Declared (q, kind))
    (h : p.references settings query = .ok report) :
    report.resolvedAs = (target, kind) ∧ report.Assembled p settings query := by
  obtain ⟨usages, husages⟩ := exists_usages hq hd settings query.direction query.filters
  simp only [references, hresolve, husages] at h
  cases h
  refine ⟨rfl, ?_, ?_, ?_⟩
  · cases query.scope <;> rfl
  · dsimp only
    cases query.scope
    · exact husages
    · exact husages
    · exact ⟨rfl, rfl⟩
  · by_cases hchains : query.withCallChains = true ∧ kind = .function
    · obtain ⟨hwanted, rfl⟩ := hchains
      obtain ⟨chains, hfound⟩ := exists_callChains hq hd query.maxDepth.toNat
      simp [hwanted, hfound, Except.toOption]
    · rw [if_neg hchains]
      have hnone : (query.withCallChains && decide (kind = .function)) = false := by
        simpa using hchains
      simp only [hnone]
      exact ⟨rfl, rfl⟩

/-- A report is there exactly when the target spells a name and something is declared that this can
mean. It is about the first such meaning, for which lookups of definitions and usages without
filters succeed, and its parts are what these lookups find. Else the lookup fails and says so. -/
theorem references_coherent (p : Program) (settings : Settings) (query : ReferenceQuery) :
    ((∃ report, p.references settings query = .ok report) ↔
      ∃ q, QualifiedName.Spells query.target q ∧ ∃ m ∈ q.meanings query.kind, p.Declared m) ∧
    (∀ report, p.references settings query = .ok report →
      (∃ q m, p.FirstMeaning query q m ∧ report.resolvedAs = (q.spelling query.target m.1, m.2) ∧
        QualifiedName.Spells report.resolvedAs.1 m.1) ∧
      (∃ found, p.definitions report.resolvedAs.1 report.resolvedAs.2 = .ok found) ∧
      (∀ direction, ∃ found,
        p.usages settings report.resolvedAs.1 report.resolvedAs.2 direction {} = .ok found) ∧
      report.Assembled p settings query) ∧
    ∀ error, p.references settings query = .error error →
      error = .notFound query.target query.kind := by
  rw [← isSome_resolve?_iff]
  cases hresolve : p.resolve? query.target query.kind with
  | none =>
    have herror : p.references settings query = .error (.notFound query.target query.kind) := by
      rw [references, hresolve]
    rw [herror]
    refine ⟨iff_of_false ?_ Bool.false_ne_true, fun _ h => ?_, fun _ h => (Except.error.inj h).symm⟩
    · rintro ⟨report, h⟩
      cases h
    · cases h
  | some resolved =>
    have hfound : ∃ report, p.references settings query = .ok report := by
      rw [references, hresolve]
      exact ⟨_, rfl⟩
    refine ⟨iff_of_true hfound rfl, fun report h => ?_, fun error h => ?_⟩
    · obtain ⟨q, m, hfirst, he, hspells⟩ := exists_firstMeaning hresolve
      have hd : p.Declared (m.1, resolved.2) := by
        rw [he]
        exact hfirst.2.1
      obtain ⟨hresolved, hassembled⟩ := assembled_of_references hresolve hspells hd h
      rw [hresolved]
      exact ⟨⟨q, m, hfirst, he, hspells⟩, exists_definitions hspells hd,
        fun direction => exists_usages hspells hd settings direction {}, hassembled⟩
    · obtain ⟨report, hreport⟩ := hfound
      cases hreport.symm.trans h

end Program

end Reports

namespace Sample

/-- A contract that keeps a private variable and writes it. -/
def keeping : Program :=
  let write : Node := { kind := .expressionStatement, excerpt := .whole "_x = 1;".toList }
  (({} : Program).addContract
    { name := "Vault"
      stateVariables := [{ name := "_x" }]
      functions := [{ name := "set", body := some { kind := .block, children := [write] } }] }).2

/-- The variable as it is asked for from outside, with white space around. -/
def keptQuery : ReferenceQuery :=
  { target := " Vault.x ", kind := .stateVariable, withCallChains := true }

end Sample

namespace Program

/-- Neither a variable nor a function `x` is declared, so the report is on `_x`; it has no chains,
since that is no function. -/
theorem references_coherent_sample :
    let _ : SearchEngine := ⟨fun _ => true⟩
    ∃ report, Sample.keeping.references {} Sample.keptQuery = .ok report ∧
      report.resolvedAs = ("Vault._x", .stateVariable) ∧
      QualifiedName.Spells "Vault._x" { contract := some "Vault", name := "_x" } ∧
      report.usages.map Usage.kind = [.assignment] ∧
      Sample.keeping.usages {} "Vault._x" .stateVariable .both {} =
        .ok ⟨report.usages, report.truncated⟩ ∧
      report.definitions = Sample.keeping.definitionsFound {} "Vault._x" .stateVariable ∧
      report.chains = [] := by
  intro _
  have hrun : ∃ report ∈ (Sample.keeping.references {} Sample.keptQuery).toOption,
      report.resolvedAs = ("Vault._x", .stateVariable) ∧
      report.usages.map Usage.kind = [.assignment] := by decide +kernel
  obtain ⟨report, hreport, hresolved, hkinds⟩ := hrun
  have hreport := Sample.eq_ok_of_mem_toOption hreport
  obtain ⟨-, hfound, -⟩ := references_coherent Sample.keeping {} Sample.keptQuery
  obtain ⟨-, -, -, hassembled⟩ := hfound report hreport
  have hdefinitions := hassembled.definitions
  have husages := hassembled.usages
  have hchains := hassembled.chains
  rw [hresolved] at hdefinitions husages hchains
  rw [if_pos (.inl rfl)] at hdefinitions husages
  rw [if_neg (by decide)] at hchains
  exact ⟨report, hreport, hresolved, .qualified (by decide) (by decide) (by decide),
    hkinds, husages, hdefinitions, hchains.1⟩

end Program

end ContractAtlas
