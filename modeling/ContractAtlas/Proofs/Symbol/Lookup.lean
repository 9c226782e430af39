import ContractAtlas.Proofs.Program.Registration
import ContractAtlas.Proofs.Symbol.Cap
import ContractAtlas.Proofs.Text.Trim
import Mathlib.Data.List.Forall2

/-! Looking up the definitions of a symbol: every declaration that the target means is found, the
first of them is the primary one, and a qualified target finds its part of what the bare name
finds. -/
namespace ContractAtlas

namespace QualifiedName

/-- A target spells a name, or a contract and a name with a dot between them, with or without white
space around the whole. No part is empty or has a dot itself. -/
inductive Spells (target : String) : QualifiedName → Prop
  | bare {name : String} (hname : name ≠ "" ∧ '.' ∉ name.toList)
      (h : Text.trim target.toList = name.toList) : Spells target { name }
  | qualified {contract name : String} (hcontract : contract ≠ "" ∧ '.' ∉ contract.toList)
      (hname : name ≠ "" ∧ '.' ∉ name.toList)
      (h : Text.trim target.toList = contract.toList ++ '.' :: name.toList) :
      Spells target { contract := some contract, name }

private theorem ofList_part {t : Text} (hne : t.isEmpty = false) (hdot : '.' ∉ t) :
    String.ofList t ≠ "" ∧ '.' ∉ (String.ofList t).toList := by
  rw [String.toList_ofList]
  refine ⟨fun he => ?_, hdot⟩
  have hnil : t = [] := by simpa using congrArg String.toList he
  exact List.isEmpty_eq_false_iff.1 hne hnil

private theorem isEmpty_toList {s : String} (h : s ≠ "") : s.toList.isEmpty = false := by
  rw [List.isEmpty_eq_false_iff]
  exact fun he => h (String.toList_inj.1 he)

/-- Targets are read as they are spelled; what spells nothing is malformed. -/
theorem ofText?_eq_some_iff {target : String} {q : QualifiedName} :
    ofText? target.toList = some q ↔ Spells target q := by
  constructor
  · intro h
    have hjoin := Text.join_splitAt '.' (Text.trim target.toList)
    have hdots : ∀ piece ∈ Text.splitAt '.' (Text.trim target.toList), '.' ∉ piece :=
      fun _ => Text.not_mem_of_mem_splitAt
    rw [ofText?] at h
    split at h
    · rename_i name he
      rw [he] at hjoin hdots
      obtain ⟨hne, h⟩ := Option.ite_none_left_eq_some.1 h
      cases h
      refine .bare (ofList_part (Bool.eq_false_iff.2 hne) (hdots name List.mem_cons_self)) ?_
      rw [String.toList_ofList]
      simpa [Text.join, List.intercalate] using hjoin.symm
    · rename_i contract name he
      rw [he] at hjoin hdots
      obtain ⟨hne, h⟩ := Option.ite_none_left_eq_some.1 h
      rw [Bool.or_eq_true, not_or, Bool.not_eq_true, Bool.not_eq_true] at hne
      cases h
      have hcontract := ofList_part hne.1 (hdots contract List.mem_cons_self)
      have hname := ofList_part hne.2 (hdots name (List.mem_cons_of_mem _ List.mem_cons_self))
      refine .qualified hcontract hname ?_
      rw [String.toList_ofList, String.toList_ofList]
      simpa [Text.join, List.intercalate] using hjoin.symm
    · cases h
  · rintro (⟨hname, h⟩ | ⟨hcontract, hname, h⟩)
    · rw [ofText?, h, Text.splitAt_of_not_mem hname.2]
      simp [isEmpty_toList hname.1]
    · rw [ofText?, h, Text.splitAt_append_cons hcontract.2, Text.splitAt_of_not_mem hname.2]
      simp [isEmpty_toList hname.1, isEmpty_toList hcontract.1]

theorem Spells.name_ne_nil {target : String} {q : QualifiedName} (h : Spells target q) :
    q.name.toList ≠ [] := by
  rw [← List.isEmpty_eq_false_iff]
  cases h with
  | bare hname _ => exact isEmpty_toList hname.1
  | qualified _ hname _ => exact isEmpty_toList hname.1

/-- Trimming the target leaves no white space at the end of the name. -/
theorem Spells.trimEnd_name {target : String} {q : QualifiedName} (h : Spells target q) :
    Text.trimEnd q.name.toList = q.name.toList := by
  have hlast := Text.trimEnd_trim target.toList
  cases h with
  | bare _ h => rwa [h] at hlast
  | qualified _ _ h =>
    rw [h, Text.trimEnd, Text.dropEndWhile_append_cons (by decide)] at hlast
    exact (List.cons.inj (List.append_cancel_left hlast)).2

/-- A text can stand on either side of the dot of a target if it has no dot itself and no white
space in front. -/
def IsPart (s : String) : Prop :=
  '.' ∉ s.toList ∧ s.toList.head?.any Text.isBlank = false

theorem IsPart.not_mem_trimEnd {s : String} (h : IsPart s) : '.' ∉ Text.trimEnd s.toList :=
  fun hm => h.1 (Text.dropEndWhile_subset _ _ hm)

theorem ofText?_of_isPart {name : String} (hname : IsPart name) :
    ofText? name.toList = if (Text.trimEnd name.toList).isEmpty then none
      else some { name := String.ofList (Text.trimEnd name.toList) } := by
  rw [ofText?, Text.trim, Text.trimStart_of_head hname.2,
    Text.splitAt_of_not_mem hname.not_mem_trimEnd]

theorem ofText?_qualified {contract name : String} (hne : contract ≠ "")
    (hcontract : IsPart contract) (hname : IsPart name) :
    ofText? (contract ++ "." ++ name).toList =
      if (Text.trimEnd name.toList).isEmpty then none
      else some { contract, name := String.ofList (Text.trimEnd name.toList) } := by
  have hsplit : (contract ++ "." ++ name).toList = contract.toList ++ '.' :: name.toList := by
    rw [String.toList_append, String.toList_append, List.append_assoc]
    rfl
  have hfront : (contract.toList ++ '.' :: name.toList).head?.any Text.isBlank = false := by
    rw [List.head?_append_of_ne_nil _ (List.isEmpty_eq_false_iff.1 (isEmpty_toList hne))]
    exact hcontract.2
  have htrim : Text.trim (contract.toList ++ '.' :: name.toList) =
      contract.toList ++ '.' :: Text.trimEnd name.toList := by
    rw [Text.trim, Text.trimStart_of_head hfront]
    exact Text.dropEndWhile_append_cons (by decide) _ _
  rw [ofText?, hsplit, htrim, Text.splitAt_append_cons hcontract.1,
    Text.splitAt_of_not_mem hname.not_mem_trimEnd]
  simp only [isEmpty_toList hne, Bool.false_or, String.ofList_toList]

end QualifiedName

/-- The declaration bears the name and, if there is one before the dot, stands in a contract of that
name. -/
def QualifiedName.means (q : QualifiedName) (d : Declaration) : Bool :=
  d.name == q.name && q.contract.all (· == d.contract.name)

/-- All that a definition shows but its role. -/
def Definition.shown (d : Definition) : String × SymbolKind × SymbolLocation × Text :=
  (d.name, d.kind, d.location, d.source)

theorem Contract.contract_of_mem_declarations {c : Contract} {kind : SymbolKind} {d : Declaration}
    (h : d ∈ c.declarations kind) : d.contract = c := by
  cases kind <;> simp only [declarations, List.mem_map, List.mem_singleton] at h
  case contract => rw [h]
  all_goals
    obtain ⟨_, -, rfl⟩ := h
    rfl

namespace Program
variable {p : Program} {filters : Filters} {target : String} {kind : SymbolKind}

/-- All declarations of a kind, in load order. -/
def declarations (p : Program) (kind : SymbolKind) : List Declaration :=
  p.contracts.flatMap fun c => c.declarations kind

/-- Passing over contracts is passing over their declarations. -/
theorem declarationsOf_eq (p : Program) (q : QualifiedName) (kind : SymbolKind) :
    p.declarationsOf q kind = (p.declarations kind).filter q.means := by
  rw [declarationsOf, declarations, List.filter_flatMap]
  induction p.contracts with
  | nil => rfl
  | cons c cs ih =>
    have hcontract : (c.declarations kind).filter q.means =
        (c.declarations kind).filter fun d => d.name == q.name && q.contract.all (· == c.name) :=
      List.filter_congr fun d hd => by
        rw [QualifiedName.means, Contract.contract_of_mem_declarations hd]
    rw [List.flatMap_cons, ← ih, hcontract, List.filter_cons]
    cases q.contract.all (· == c.name) with
    | true => simp
    | false => simp

theorem roleOf_ne_primary (p : Program) (kind : SymbolKind) (primary d : Declaration) :
    p.roleOf kind primary d ≠ .primary := by
  simp only [roleOf]
  split
  · decide
  · split
    · decide
    · split <;> decide

/-- Something of the kind is declared that the name means. -/
def Declared (p : Program) (meaning : QualifiedName × SymbolKind) : Prop :=
  ∃ d ∈ p.declarations meaning.2, meaning.1.means d = true

theorem declared_iff {q : QualifiedName} : p.Declared (q, kind) ↔ p.declarationsOf q kind ≠ [] := by
  rw [declarationsOf_eq]
  constructor
  · rintro ⟨d, hd, hmeans⟩
    exact List.ne_nil_of_mem (List.mem_filter.2 ⟨hd, hmeans⟩)
  · intro hne
    obtain ⟨d, hd⟩ := List.exists_mem_of_ne_nil _ hne
    exact ⟨d, List.mem_filter.1 hd⟩

section Filtered
variable [SearchEngine]

/-- What is declared can be searched for usages. -/
theorem exists_usages {q : QualifiedName} (hq : QualifiedName.Spells target q)
    (hd : p.Declared (q, kind)) (settings : Settings) (direction : Direction) (filters : Filters) :
    ∃ found, p.usages settings target kind direction filters = .ok found := by
  obtain ⟨anchor, rest, hdeclared⟩ := List.exists_cons_of_ne_nil (declared_iff.1 hd)
  simp only [usages, QualifiedName.ofText?_eq_some_iff.2 hq, hdeclared]
  exact ⟨_, rfl⟩

/-- The declarations of a name that the filters accept, in load order. -/
def declarationsMeant (p : Program) (filters : Filters) (q : QualifiedName) (kind : SymbolKind) :
    List Declaration :=
  (p.declarations kind).filter fun d => q.means d && filters.accepts d.contract d.span.path

/-- The definitions that a lookup lists; none if it fails. -/
def definitionsFound (p : Program) (filters : Filters) (target : String) (kind : SymbolKind) :
    List Definition :=
  (p.definitionsWithin filters target kind).toOption.getD []

theorem filter_declarationsOf (p : Program) (filters : Filters) (q : QualifiedName)
    (kind : SymbolKind) :
    ((p.declarationsOf q kind).filter fun d => filters.accepts d.contract d.span.path) =
      p.declarationsMeant filters q kind := by
  rw [declarationsOf_eq, List.filter_filter, declarationsMeant]
  exact List.filter_congr fun d _ => Bool.and_comm _ _

section Listing
variable {q : QualifiedName} (hq : QualifiedName.Spells target q)
include hq

theorem definitionsWithin_of_nil (hnone : p.declarationsMeant filters q kind = []) :
    p.definitionsWithin filters target kind = .error (.notFound target kind) := by
  rw [definitionsWithin, QualifiedName.ofText?_eq_some_iff.2 hq]
  simp only [filter_declarationsOf, hnone]

theorem definitionsWithin_of_cons {primary : Declaration} {rest : List Declaration}
    (hmeant : p.declarationsMeant filters q kind = primary :: rest) :
    p.definitionsWithin filters target kind = .ok (primary.toDefinition kind .primary ::
      rest.map fun d => d.toDefinition kind (p.roleOf kind primary d)) := by
  rw [definitionsWithin, QualifiedName.ofText?_eq_some_iff.2 hq]
  simp only [filter_declarationsOf, hmeant]

/-- Apart from the roles, a lookup lists what is meant. -/
theorem shown_definitionsFound :
    (p.definitionsFound filters target kind).map Definition.shown =
      (p.declarationsMeant filters q kind).map fun d => (d.toDefinition kind .primary).shown := by
  rw [definitionsFound]
  cases hmeant : p.declarationsMeant filters q kind with
  | nil =>
    rw [definitionsWithin_of_nil hq hmeant]
    rfl
  | cons primary rest =>
    rw [definitionsWithin_of_cons hq hmeant, Except.toOption, Option.getD_some, List.map_cons,
      List.map_map]
    rfl

end Listing

theorem definitionsFound_of_malformed (h : QualifiedName.ofText? target.toList = none) :
    p.definitionsFound filters target kind = [] := by
  rw [definitionsFound, definitionsWithin, h]
  rfl

/-- A lookup finds something exactly when its target spells the name of something accepted. -/
theorem exists_definitionsWithin_iff (p : Program) (filters : Filters) (target : String)
    (kind : SymbolKind) :
    (∃ found, p.definitionsWithin filters target kind = .ok found) ↔
      ∃ q, QualifiedName.Spells target q ∧ ∃ d ∈ p.declarations kind,
        q.means d = true ∧ filters.accepts d.contract d.span.path = true := by
  constructor
  · rintro ⟨found, hfound⟩
    cases hname : QualifiedName.ofText? target.toList with
    | none =>
      rw [definitionsWithin, hname] at hfound
      cases hfound
    | some q =>
      have hq := QualifiedName.ofText?_eq_some_iff.1 hname
      cases hmeant : p.declarationsMeant filters q kind with
      | nil =>
        rw [definitionsWithin_of_nil hq hmeant] at hfound
        cases hfound
      | cons d rest =>
        have hmem : d ∈ p.declarationsMeant filters q kind := hmeant ▸ List.mem_cons_self
        obtain ⟨hd, hmeans⟩ := List.mem_filter.1 hmem
        exact ⟨q, hq, d, hd, Bool.and_eq_true_iff.1 hmeans⟩
  · rintro ⟨q, hq, d, hd, hmeans⟩
    have hmem : d ∈ p.declarationsMeant filters q kind :=
      List.mem_filter.2 ⟨hd, Bool.and_eq_true_iff.2 hmeans⟩
    obtain ⟨primary, rest, hmeant⟩ := List.exists_cons_of_ne_nil (List.ne_nil_of_mem hmem)
    exact ⟨_, definitionsWithin_of_cons hq hmeant⟩

theorem declarationsMeant_qualified (p : Program) (filters : Filters) (contract name : String)
    (kind : SymbolKind) :
    p.declarationsMeant filters { contract := some contract, name } kind =
      (p.declarationsMeant filters { name } kind).filter fun d => contract == d.contract.name := by
  rw [declarationsMeant, declarationsMeant, List.filter_filter]
  refine List.filter_congr fun d _ => ?_
  simp only [QualifiedName.means, Option.all_some, Option.all_none, Bool.and_true]
  ac_rfl

/-- A qualified target finds what the bare name finds in the contracts of the name before the
dot. -/
theorem shown_definitionsFound_qualified (p : Program) (filters : Filters) (kind : SymbolKind)
    {contract name : String} (hne : contract ≠ "") (hcontract : QualifiedName.IsPart contract)
    (hname : QualifiedName.IsPart name) :
    (p.definitionsFound filters (contract ++ "." ++ name) kind).map Definition.shown =
      ((p.definitionsFound filters name kind).filter fun e =>
        e.location.contract == some contract).map Definition.shown := by
  have hbare := QualifiedName.ofText?_of_isPart hname
  have hfull := QualifiedName.ofText?_qualified hne hcontract hname
  split at hbare
  · rename_i hempty
    rw [if_pos hempty] at hfull
    rw [definitionsFound_of_malformed hfull, definitionsFound_of_malformed hbare]
    rfl
  · rename_i hempty
    rw [if_neg hempty] at hfull
    have hcommute : ∀ found : List Definition,
        (found.filter fun e => e.location.contract == some contract).map Definition.shown =
          (found.map Definition.shown).filter fun e => e.2.2.1.contract == some contract := by
      intro found
      rw [List.filter_map]
      rfl
    rw [hcommute, shown_definitionsFound (QualifiedName.ofText?_eq_some_iff.1 hfull),
      shown_definitionsFound (QualifiedName.ofText?_eq_some_iff.1 hbare),
      declarationsMeant_qualified, List.filter_map]
    refine congrArg (List.map _) (List.filter_congr fun d _ => ?_)
    exact Bool.beq_comm.trans (Option.some_beq_some).symm

/-- A lookup finds something exactly when its target spells the name of a declaration of the kind
that passes the filters, in the contract that is named if one is. It then lists all such
declarations in load order and once each, of which the first and no other is the primary one. A name
behind a contract and a dot finds what the name alone finds in the contracts so called. -/
theorem definitionsWithin_exact (p : Program) (filters : Filters) (kind : SymbolKind) :
    (∀ target,
      ((∃ found, p.definitionsWithin filters target kind = .ok found) ↔
        ∃ q, QualifiedName.Spells target q ∧ ∃ d ∈ p.declarations kind,
          q.means d = true ∧ filters.accepts d.contract d.span.path = true) ∧
      ∀ q found, QualifiedName.Spells target q →
        p.definitionsWithin filters target kind = .ok found →
        List.Forall₂ (fun d e => e = d.toDefinition kind e.role)
          (p.declarationsMeant filters q kind) found ∧
        ∃ primary rest, found = primary :: rest ∧ primary.role = .primary ∧
          ∀ e ∈ rest, e.role ≠ .primary) ∧
    ∀ contract name : String, contract ≠ "" → QualifiedName.IsPart contract →
      QualifiedName.IsPart name →
      (p.definitionsFound filters (contract ++ "." ++ name) kind).map Definition.shown =
        ((p.definitionsFound filters name kind).filter fun e =>
          e.location.contract == some contract).map Definition.shown := by
  refine ⟨fun target => ⟨p.exists_definitionsWithin_iff filters target kind, ?_⟩,
    fun contract name hne hcontract hname =>
      p.shown_definitionsFound_qualified filters kind hne hcontract hname⟩
  intro q found hq hfound
  cases hmeant : p.declarationsMeant filters q kind with
  | nil =>
    rw [definitionsWithin_of_nil hq hmeant] at hfound
    cases hfound
  | cons primary rest =>
    rw [definitionsWithin_of_cons hq hmeant] at hfound
    cases hfound
    refine ⟨.cons rfl ?_, _, _, rfl, rfl, fun e he => ?_⟩
    · rw [List.forall₂_map_right_iff, List.forall₂_same]
      exact fun _ _ => rfl
    · obtain ⟨d, -, rfl⟩ := List.mem_map.1 he
      exact p.roleOf_ne_primary kind primary d

end Filtered

end Program

namespace Sample

/-- Two contracts that declare `f`, the second of them twice and below the first. -/
def overloaded : Program :=
  let f (line : Nat) : Function := { name := "f", span := { line } }
  let upper : Contract := { name := "Upper", functions := [f 1] }
  let lower : Contract := { name := "Lower", bases := ["Upper"], functions := [f 2, f 3] }
  ((({} : Program).addContract upper).2.addContract lower).2

/-- A function outside all contracts. -/
def free : SourceUnit where
  path := "M.sol"
  text := "function f() public \x7b\x7d\n".toList
  tree := form "source_file" 0 23 [form "function_definition" 0 22
    [token "function" 0 8, form "identifier" 9 10, token "(" 10 11, token ")" 11 12,
      form "visibility" 13 19 [token "public" 13 19],
      form "function_body" 20 22 [token "\x7b" 20 21, token "\x7d" 21 22]]
    [("body", 5), ("name", 1)]]

end Sample

namespace Program

theorem definitionsWithin_exact_sample :
    let _ : SearchEngine := ⟨fun _ => true⟩
    let p := Sample.overloaded
    ∃ found, QualifiedName.Spells "f" { name := "f" } ∧
      p.definitionsWithin {} "f" .function = .ok found ∧
      found.map (fun e => (e.location.line, e.role)) =
        [(1, .primary), (2, .overriding), (3, .overriding)] ∧
      List.Forall₂ (fun d e => e = d.toDefinition .function e.role)
        (p.declarationsMeant {} { name := "f" } .function) found ∧
      QualifiedName.IsPart "Lower" ∧ QualifiedName.IsPart "f" ∧
      (p.definitionsFound {} "Lower.f" .function).map (fun e => (e.location.line, e.role)) =
        [(2, .primary), (3, .additional)] ∧
      (p.definitionsFound {} "Lower.f" .function).map Definition.shown =
        ((p.definitionsFound {} "f" .function).filter fun e =>
          e.location.contract == some "Lower").map Definition.shown := by
  intro _ p
  have hrun : ∃ found ∈ (p.definitionsWithin {} "f" .function).toOption,
      found.map (fun e => (e.location.line, e.role)) =
        [(1, .primary), (2, .overriding), (3, .overriding)] := by decide +kernel
  obtain ⟨found, hfound, hlines⟩ := hrun
  have hfound := Sample.eq_ok_of_mem_toOption hfound
  have hspells : QualifiedName.Spells "f" { name := "f" } := .bare (by decide) (by decide)
  have hlower : QualifiedName.IsPart "Lower" := ⟨by decide, by decide⟩
  have hname : QualifiedName.IsPart "f" := ⟨by decide, by decide⟩
  obtain ⟨hbare, hqualified⟩ := definitionsWithin_exact p {} .function
  exact ⟨found, hspells, hfound, hlines, ((hbare "f").2 _ _ hspells hfound).1, hlower, hname,
    by decide +kernel, hqualified "Lower" "f" (by decide) hlower hname⟩

/-- What stands outside all contracts is held by a contract with the name of the file, which has a
dot in it and so cannot be named in a target. -/
theorem file_contract_not_spelled :
    let _ : SearchEngine := ⟨fun _ => true⟩
    ∃ ids p, ({} : Program).load {} Sample.free = .ok (ids, p) ∧
      (∃ c ∈ p.contracts, c.name = "M.sol") ∧
      (p.definitionsFound {} ("M.sol" ++ "." ++ "f") .function).map Definition.shown ≠
        ((p.definitionsFound {} "f" .function).filter fun e =>
          e.location.contract == some "M.sol").map Definition.shown := by
  intro _
  have hrun : ∃ r ∈ (({} : Program).load {} Sample.free).toOption,
      (∃ c ∈ r.2.contracts, c.name = "M.sol") ∧
      (r.2.definitionsFound {} ("M.sol" ++ "." ++ "f") .function).map Definition.shown ≠
        ((r.2.definitionsFound {} "f" .function).filter fun e =>
          e.location.contract == some "M.sol").map Definition.shown := by decide +kernel
  obtain ⟨r, hr, hfile, hdiffer⟩ := hrun
  exact ⟨r.1, r.2, Sample.eq_ok_of_mem_toOption hr, hfile, hdiffer⟩

end Program

end ContractAtlas
