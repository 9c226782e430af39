import ContractAtlas.Proofs.Call.ScopeGrowth
import ContractAtlas.Proofs.Symbol.Frame
import ContractAtlas.Proofs.Symbol.Lookup
import Mathlib.Data.List.Forall2
import Mathlib.Data.List.Infix

/-! Symbols in a growing program. What is found of a symbol stays found, in the same order and
before anything that later files add; a definition can only turn from an additional one into an
overriding one. -/
namespace ContractAtlas

namespace Program

/-- `p'` is `p` with one more file, loaded with or without an analysis. -/
inductive Accepts (p : Program) (u : SourceUnit) (p' : Program) : Prop
  | registered {ids : List Nat} (h : p.register u = .ok (ids, p'))
  | loaded {ids : List Nat} {settings : Settings} (h : p.load settings u = .ok (ids, p'))

/-- A program made of loaded files only. -/
inductive Loaded : Program → Prop
  | empty : Loaded {}
  | accepts {p p' : Program} {u : SourceUnit} (hp : Loaded p) (h : p.Accepts u p') : Loaded p'

/-- Up to what an analysis writes, an accepted file goes behind what the program holds. -/
theorem Accepts.extended {p p' : Program} {u : SourceUnit} (h : p.Accepts u p') :
    ∃ imports contracts, u.read p.files.length = .ok (imports, contracts) ∧
      p'.unanalysed = (p.extended u imports contracts).unanalysed := by
  cases h with
  | registered h =>
    obtain ⟨imports, contracts, hread, rfl⟩ := register_ok h
    exact ⟨imports, contracts, hread, rfl⟩
  | loaded h =>
    obtain ⟨r, hr, rfl⟩ := load_ok h
    obtain ⟨imports, contracts, hread, rfl⟩ := register_ok hr
    exact ⟨imports, contracts, hread, unanalysed_analyze _⟩

end Program

section Definitions

/-- The same definition, or an additional one that now counts as overriding. -/
inductive Definition.Kept (d : Definition) : Definition → Prop
  | same : Kept d d
  | overriding (h : d.role = .additional) : Kept d { d with role := .overriding }

namespace Program
variable {p q : Program}

theorem inheritsFrom_mono (h : p.Extends q) {i j : Nat} (hj : p.inheritsFrom i j = true) :
    q.inheritsFrom i j = true := by
  rw [inheritsFrom, List.contains_iff_mem] at hj ⊢
  exact ancestors_mono h hj

theorem roleOf_mono (h : p.Extends q) (kind : SymbolKind) (primary d : Declaration) :
    q.roleOf kind primary d = p.roleOf kind primary d ∨
      p.roleOf kind primary d = .additional ∧ q.roleOf kind primary d = .overriding := by
  simp only [roleOf]
  split
  · exact .inl rfl
  split
  · exact .inl rfl
  by_cases hp : (d.isOverride || primary.contract.id != d.contract.id &&
      (p.inheritsFrom d.contract.id primary.contract.id ||
        p.inheritsFrom primary.contract.id d.contract.id)) = true
  · have hq : (d.isOverride || primary.contract.id != d.contract.id &&
        (q.inheritsFrom d.contract.id primary.contract.id ||
          q.inheritsFrom primary.contract.id d.contract.id)) = true := by
      simp only [Bool.or_eq_true, Bool.and_eq_true] at hp ⊢
      exact hp.imp_right fun hr => ⟨hr.1, hr.2.imp (inheritsFrom_mono h) (inheritsFrom_mono h)⟩
    rw [if_pos hp, if_pos hq]
    exact .inl rfl
  · rw [if_neg hp]
    split
    · exact .inr ⟨rfl, rfl⟩
    · exact .inl rfl

theorem kept_toDefinition (h : p.Extends q) (kind : SymbolKind)
    (primary d : Declaration) :
    (d.toDefinition kind (p.roleOf kind primary d)).Kept
      (d.toDefinition kind (q.roleOf kind primary d)) := by
  rcases roleOf_mono h kind primary d with he | ⟨hp, hq⟩
  · rw [he]
    exact .same
  · rw [hp, hq]
    exact .overriding rfl

theorem declarationsOf_mono (h : p.contracts <+: q.contracts) (name : QualifiedName)
    (kind : SymbolKind) : p.declarationsOf name kind <+: q.declarationsOf name kind := by
  obtain ⟨later, hl⟩ := h
  rw [declarationsOf, declarationsOf, ← hl, List.filter_append, List.flatMap_append]
  exact List.prefix_append _ _

/-- Definitions stay in place, the primary one as it is. -/
theorem definitionsWithin_mono [SearchEngine] (h : p.Extends q) {filters : Filters}
    {target : String} {kind : SymbolKind} {ds : List Definition}
    (hds : p.definitionsWithin filters target kind = .ok ds) :
    ∃ kept later, q.definitionsWithin filters target kind = .ok (kept ++ later) ∧
      kept.head? = ds.head? ∧ List.Forall₂ Definition.Kept ds kept := by
  rw [definitionsWithin] at hds ⊢
  cases hname : QualifiedName.ofText? target.toList with
  | none => rw [hname] at hds; cases hds
  | some name =>
    rw [hname] at hds
    obtain ⟨later, hl⟩ := declarationsOf_mono h.contracts name kind
    simp only [← hl, List.filter_append] at hds ⊢
    cases hfound : (p.declarationsOf name kind).filter fun d =>
        filters.accepts d.contract d.span.path with
    | nil => rw [hfound] at hds; cases hds
    | cons primary rest =>
      rw [hfound] at hds
      cases hds
      simp only [List.cons_append, List.map_append]
      refine ⟨primary.toDefinition kind .primary ::
        rest.map fun d => d.toDefinition kind (q.roleOf kind primary d), _, rfl, rfl,
        .cons .same ?_⟩
      rw [List.forall₂_map_left_iff, List.forall₂_map_right_iff, List.forall₂_same]
      exact fun d _ => kept_toDefinition h kind primary d

end Program

end Definitions

section Usages

namespace Program
variable {p q : Program} {filters : Filters}

/-- The files that a search looks up by number are there: those of contracts without a path of their
own, if the search is restricted to files, and those of the places that name a path. -/
structure FilesKnown (p : Program) (filters : Filters) : Prop where
  contracts : filters.files ≠ [] → ∀ c ∈ p.contracts, c.span.path.isEmpty = true →
    c.file < p.files.length
  nodes : ∀ c ∈ p.contracts, ∀ x ∈ c.candidates, x.2.span.path.isEmpty = false →
    x.2.span.file < p.files.length

theorem file?_mono (h : p.files <+: q.files) {i : Nat} (hi : i < p.files.length) :
    q.file? i = p.file? i := by
  obtain ⟨later, hl⟩ := h
  rw [file?, file?, ← hl, List.getElem?_append_left hi]

theorem accepts_pathOf_mono [SearchEngine] (h : p.Extends q) (hknown : p.FilesKnown filters)
    {c : Contract}
    (hc : c ∈ p.contracts) : filters.accepts c (q.pathOf c) = filters.accepts c (p.pathOf c) := by
  by_cases hfiles : filters.files = []
  · rw [Filters.accepts, Filters.accepts, Filters.acceptsFile, Filters.acceptsFile, hfiles]
    rfl
  · have hpath : q.pathOf c = p.pathOf c := by
      rw [pathOf, pathOf]
      split
      · rename_i hempty
        rw [file?_mono h.files (hknown.contracts hfiles c hc hempty)]
      · rfl
    rw [hpath]

theorem usageIn?_mono (h : p.Extends q) (hknown : p.FilesKnown filters) {c : Contract}
    (hc : c ∈ p.contracts) {x : Option String × Node} (hx : x ∈ c.candidates) (settings : Settings)
    (name : String) (kind : SymbolKind) :
    q.usageIn? settings name kind c x.1 x.2 = p.usageIn? settings name kind c x.1 x.2 := by
  have hcontext : ∀ line, q.usageContext settings.contextLines x.2 name.toList line =
      p.usageContext settings.contextLines x.2 name.toList line := by
    intro line
    rw [usageContext, usageContext]
    cases hpath : x.2.span.path.isEmpty with
    | true => simp only [Bool.not_true, Bool.and_false]; rfl
    | false => rw [file?_mono h.files (hknown.nodes c hc x hx hpath)]
  simp only [usageIn?, hcontext]

theorem usagesOf_mono [SearchEngine] (h : p.Extends q) (hknown : p.FilesKnown filters)
    (settings : Settings) (kind : SymbolKind) (direction : Direction) (anchor : Declaration) :
    p.usagesOf settings kind direction filters anchor <+:
      q.usagesOf settings kind direction filters anchor := by
  obtain ⟨later, hl⟩ := h.contracts
  have hold : (p.contracts.filter fun c => filters.accepts c (q.pathOf c)) =
      p.contracts.filter fun c => filters.accepts c (p.pathOf c) :=
    List.filter_congr fun c hc => accepts_pathOf_mono h hknown hc
  rw [usagesOf, usagesOf, ← hl, List.filter_append, List.flatMap_append, hold]
  have hsame : ∀ c ∈ p.contracts.filter fun c => filters.accepts c (p.pathOf c),
      ((c.candidates.filter fun x => direction.allows x.2.span anchor.span).filterMap fun x =>
        q.usageIn? settings anchor.name kind c x.1 x.2) =
      (c.candidates.filter fun x => direction.allows x.2.span anchor.span).filterMap fun x =>
        p.usageIn? settings anchor.name kind c x.1 x.2 := by
    intro c hc
    refine List.filterMap_congr fun x hx => ?_
    exact usageIn?_mono h hknown (List.mem_of_mem_filter hc) (List.mem_of_mem_filter hx) ..
  exact ⟨_, congrArg (· ++ _) (List.flatMap_congr hsame).symm⟩

/-- Usages stay in place under the same cap. -/
theorem usages_mono [SearchEngine] (h : p.Extends q) (hknown : p.FilesKnown filters)
    {settings : Settings} {target : String} {kind : SymbolKind} {direction : Direction}
    {found : Usages} (hfound : p.usages settings target kind direction filters = .ok found) :
    ∃ found', q.usages settings target kind direction filters = .ok found' ∧
      found.usages <+: found'.usages := by
  rw [usages_eq, allUsages] at hfound ⊢
  cases hname : QualifiedName.ofText? target.toList with
  | none => rw [hname] at hfound; cases hfound
  | some name =>
    rw [hname] at hfound
    obtain ⟨later, hl⟩ := declarationsOf_mono h.contracts name kind
    simp only [← hl] at hfound ⊢
    cases hanchor : p.declarationsOf name kind with
    | nil => rw [hanchor] at hfound; cases hfound
    | cons anchor rest =>
      rw [hanchor] at hfound
      cases hfound
      exact ⟨_, rfl, List.IsPrefix.take (usagesOf_mono h hknown settings kind direction anchor) _⟩

theorem filesKnown_unanalysed : p.unanalysed.FilesKnown filters ↔ p.FilesKnown filters := by
  have hspan : ∀ n : Node, n.unclassified.span = n.span := Node.relabel_span
  constructor
  · intro h
    refine ⟨fun hfiles c hc => ?_, fun c hc x hx hpath => ?_⟩
    · exact h.contracts hfiles c.unanalysed (List.mem_map_of_mem hc)
    · have hx' : (x.1, x.2.unclassified) ∈ c.unanalysed.candidates := by
        rw [Contract.candidates_unanalysed]
        exact List.mem_map_of_mem hx
      have := h.nodes c.unanalysed (List.mem_map_of_mem hc) _ hx'
      rw [hspan] at this
      exact this hpath
  · intro h
    refine ⟨fun hfiles c hc => ?_, fun c hc x hx => ?_⟩
    · obtain ⟨d, hd, rfl⟩ := List.mem_map.1 hc
      exact h.contracts hfiles d hd
    · obtain ⟨d, hd, rfl⟩ := List.mem_map.1 hc
      rw [Contract.candidates_unanalysed] at hx
      obtain ⟨y, hy, rfl⟩ := List.mem_map.1 hx
      rw [hspan]
      exact h.nodes d hd y hy

theorem FilesKnown.extended (hp : p.FilesKnown filters) {u : SourceUnit} {imports : List Import}
    {contracts : List Contract} (hread : u.read p.files.length = .ok (imports, contracts)) :
    (p.extended u imports contracts).FilesKnown filters := by
  have hlength : (p.extended u imports contracts).files.length = p.files.length + 1 :=
    List.length_append
  have hnew : ∀ c ∈ Contract.numberedFrom p.contracts.length contracts,
      c.file = p.files.length ∧ ∀ x ∈ c.candidates, x.2.span.file = p.files.length := by
    intro c hc
    obtain ⟨i, hi, rfl⟩ := List.mem_mapIdx.1 hc
    have hself := SourceUnit.relabel_of_mem_read hread (List.getElem_mem hi)
    refine ⟨congrArg Contract.file hself.symm, fun x hx => ?_⟩
    rw [Contract.candidates_numbered, ← hself,
      Contract.candidates_relabel NodeKind.reclassifies_unclassified] at hx
    obtain ⟨y, -, rfl⟩ := List.mem_map.1 hx
    rw [Node.relabel_span]
    rfl
  refine ⟨fun hfiles c hc hpath => ?_, fun c hc x hx hpath => ?_⟩
  · rw [hlength]
    rcases List.mem_append.1 hc with hc | hc
    · exact Nat.lt_succ_of_lt (hp.contracts hfiles c hc hpath)
    · exact Nat.lt_succ_of_le (Nat.le_of_eq (hnew c hc).1)
  · rw [hlength]
    rcases List.mem_append.1 hc with hc | hc
    · exact Nat.lt_succ_of_lt (hp.nodes c hc x hx hpath)
    · exact Nat.lt_succ_of_le (Nat.le_of_eq ((hnew c hc).2 x hx))

/-- Code that comes from loaded files refers to no other file. -/
theorem Loaded.filesKnown (hp : p.Loaded) (filters : Filters) : p.FilesKnown filters := by
  induction hp with
  | empty => exact ⟨fun _ _ hc => (nomatch hc), fun _ hc => nomatch hc⟩
  | accepts _ h ih =>
    obtain ⟨imports, contracts, hread, he⟩ := h.extended
    rw [← filesKnown_unanalysed, he, filesKnown_unanalysed]
    exact ih.extended hread

end Program

end Usages

namespace Program

/-- Resolution only appends. The definitions found before one more file is accepted are found after
it, in the same places and before all others, the primary one as it was and the others but for
additional ones that have become overriding; and the usages found before begin the list of those
found after, if the program is made of loaded files or no file that the search looks up by number is
missing. -/
theorem resolution_append [SearchEngine] {p p' : Program} {u : SourceUnit}
    (haccepts : p.Accepts u p') {target : String} {kind : SymbolKind} {ds : List Definition}
    (hds : p.definitions target kind = .ok ds) :
    (∃ kept later, p'.definitions target kind = .ok (kept ++ later) ∧
      kept.head? = ds.head? ∧ List.Forall₂ Definition.Kept ds kept) ∧
    ∀ (settings : Settings) (direction : Direction) (filters : Filters),
      p.Loaded ∨ p.FilesKnown filters → ∃ found found',
        p.usages settings target kind direction filters = .ok found ∧
        p'.usages settings target kind direction filters = .ok found' ∧
        found.usages <+: found'.usages := by
  obtain ⟨imports, contracts, -, he⟩ := haccepts.extended
  have hextends := p.extends_extended u imports contracts
  -- The search reads the program as it was before the analysis that the load may have run.
  have hdefinitions : p'.definitions target kind =
      (p.extended u imports contracts).definitions target kind := by
    rw [definitions, ← definitionsWithin_unanalysed, he, definitionsWithin_unanalysed, definitions]
  refine ⟨?_, fun settings direction filters hknown => ?_⟩
  · rw [hdefinitions]
    exact definitionsWithin_mono hextends hds
  · have hknown : p.FilesKnown filters := hknown.elim (fun hloaded => hloaded.filesKnown filters) id
    have husages : p'.usages settings target kind direction filters =
        (p.extended u imports contracts).usages settings target kind direction filters := by
      rw [← usages_unanalysed, he, usages_unanalysed]
    obtain ⟨q, hq, d, hd, hmeans, -⟩ := (p.exists_definitionsWithin_iff {} target kind).1 ⟨ds, hds⟩
    obtain ⟨found, hfound⟩ := exists_usages hq ⟨d, hd, hmeans⟩ settings direction filters
    obtain ⟨found', hfound', hprefix⟩ := usages_mono hextends hknown hfound
    exact ⟨found, found', hfound, husages.trans hfound', hprefix⟩

end Program

namespace Sample

/-- Two contracts made by hand, the second of which calls `f` in a statement that claims to stand in
the first file, at `path`. Only the contract that `derived` declares relates them. -/
def handmade (path : String) : Program :=
  let statement : Node :=
    { kind := .expressionStatement
      span := { path, line := 1, column := 1, endLine := 1, endColumn := 5, endByte := 4 }
      excerpt := ⟨"f();".toList, 0, 4⟩ }
  let ok : Contract := { name := "Ok", functions := [{ name := "f" }] }
  let low : Contract :=
    { name := "Low"
      bases := ["Ok2"]
      functions := [{ name := "f", body := some { kind := .block, children := [statement] } }] }
  ((({} : Program).addContract ok).2.addContract low).2

end Sample

namespace Program

/-- The second definition of `f` becomes overriding, and a usage in the new file is appended. -/
theorem resolution_append_sample :
    let _ : SearchEngine := ⟨fun _ => true⟩
    let p := Sample.handmade ""
    ∃ p' ds ds' found found', p.Accepts Sample.derived p' ∧ p.FilesKnown {} ∧
      p.definitions "f" .function = .ok ds ∧ p'.definitions "f" .function = .ok ds' ∧
      ds.map Definition.role = [.primary, .additional] ∧
      ds'.map Definition.role = [.primary, .overriding] ∧
      (∃ kept later, ds' = kept ++ later ∧ List.Forall₂ Definition.Kept ds kept) ∧
      p.usages {} "f" .function .both {} = .ok found ∧
      p'.usages {} "f" .function .both {} = .ok found' ∧
      found.usages.length = 1 ∧ found'.usages.length = 2 ∧ found.usages <+: found'.usages := by
  intro _ p
  have hrun : ∃ r ∈ (p.load {} Sample.derived).toOption,
      ∃ ds ∈ (p.definitions "f" .function).toOption,
      ∃ ds' ∈ (r.2.definitions "f" .function).toOption,
      ∃ found ∈ (p.usages {} "f" .function .both {}).toOption,
      ∃ found' ∈ (r.2.usages {} "f" .function .both {}).toOption,
        ds.map Definition.role = [.primary, .additional] ∧
        ds'.map Definition.role = [.primary, .overriding] ∧
        found.usages.length = 1 ∧ found'.usages.length = 2 := by decide +kernel
  obtain ⟨r, hr, ds, hds, ds', hds', found, hfound, found', hfound', hroles, hroles', hone, htwo⟩ :=
    hrun
  have haccepts : p.Accepts Sample.derived r.2 := .loaded (Sample.eq_ok_of_mem_toOption hr)
  have hknown : p.FilesKnown {} := ⟨fun hfiles => absurd rfl hfiles, by decide +kernel⟩
  have hds := Sample.eq_ok_of_mem_toOption hds
  have hds' := Sample.eq_ok_of_mem_toOption hds'
  have hfound := Sample.eq_ok_of_mem_toOption hfound
  have hfound' := Sample.eq_ok_of_mem_toOption hfound'
  obtain ⟨⟨kept, later, hkept, -, hsame⟩, husages⟩ := resolution_append haccepts hds
  obtain ⟨_, _, h, h', hprefix⟩ := husages {} .both {} (.inr hknown)
  cases h.symm.trans hfound
  cases h'.symm.trans hfound'
  exact ⟨r.2, ds, ds', found, found', haccepts, hknown, hds, hds', hroles, hroles',
    ⟨kept, later, Except.ok.inj (hds'.symm.trans hkept), hsame⟩, hfound, hfound', hone,
    htwo, hprefix⟩

/-- A statement that refers to a file not loaded yet is shown with other lines around it once the
file is there. -/
theorem usages_changed_by_load :
    let _ : SearchEngine := ⟨fun _ => true⟩
    ∃ ids p' found found',
      (Sample.handmade "Derived.sol").load {} Sample.derived = .ok (ids, p') ∧
      (Sample.handmade "Derived.sol").usages {} "f" .function .both {} = .ok found ∧
      p'.usages {} "f" .function .both {} = .ok found' ∧ ¬ found.usages <+: found'.usages := by
  intro _
  have hrun : ∃ r ∈ ((Sample.handmade "Derived.sol").load {} Sample.derived).toOption,
      ∃ found ∈ ((Sample.handmade "Derived.sol").usages {} "f" .function .both {}).toOption,
      ∃ found' ∈ (r.2.usages {} "f" .function .both {}).toOption,
        ¬ found.usages <+: found'.usages := by decide +kernel
  obtain ⟨r, hr, found, hfound, found', hfound', hn⟩ := hrun
  exact ⟨r.1, r.2, found, found', Sample.eq_ok_of_mem_toOption hr,
    Sample.eq_ok_of_mem_toOption hfound, Sample.eq_ok_of_mem_toOption hfound', hn⟩

end Program

end ContractAtlas
