import ContractAtlas.Symbol.Usage
import Mathlib.Data.List.TakeDrop

/-! The cap on usages. The search stops in the middle of a contract when the cap leaves out a usage,
and what it has found by then are the first usages of all that there are. -/
namespace ContractAtlas

namespace Usages
variable {cap : Nat} {all more : List Usage}

/-- As many of all usages as the cap allows, and whether there are more. -/
def capped (cap : Nat) (all : List Usage) : Usages := ⟨all.take cap, cap < all.length⟩

theorem capped_of_le (h : all.length ≤ cap) : capped cap all = ⟨all, false⟩ := by
  rw [capped, List.take_of_length_le h, decide_eq_false (Nat.not_lt.2 h)]

/-- Behind a usage that the cap leaves out nothing more is taken in. -/
theorem capped_append_of_lt (h : cap < all.length) : capped cap (all ++ more) = capped cap all := by
  have hmore : cap < (all ++ more).length := by
    rw [List.length_append]
    omega
  rw [capped, capped, List.take_append_of_le_length (Nat.le_of_lt h), decide_eq_true hmore,
    decide_eq_true h]

theorem collect_eq {α : Type} {usage? : α → Option Usage} (as : List α) (h : all.length ≤ cap) :
    collect cap usage? as ⟨all, false⟩ = capped cap (all ++ as.filterMap usage?) := by
  induction as generalizing all with
  | nil => rw [collect, List.filterMap_nil, List.append_nil, capped_of_le h]
  | cons a as ih =>
    cases hu : usage? a with
    | none =>
      simp only [collect, hu]
      rw [List.filterMap_cons_none hu, ih h]
    | some u =>
      simp only [collect, hu]
      rw [List.filterMap_cons_some hu, List.append_cons all u (as.filterMap usage?)]
      by_cases hfull : cap ≤ all.length
      · have hover : cap < (all ++ [u]).length := by
          rw [List.length_append, List.length_singleton]
          omega
        rw [if_pos hfull, capped_append_of_lt hover, capped, decide_eq_true hover,
          List.take_append_of_le_length hfull, List.take_of_length_le h]
      · have hnext : (all ++ [u]).length ≤ cap := by
          rw [List.length_append, List.length_singleton]
          omega
        rw [if_neg hfull, ih hnext]

end Usages

namespace Program

section Search
variable [SearchEngine]

/-- All usages of the declaration `anchor`, in load order. -/
def usagesOf (p : Program) (settings : Settings) (kind : SymbolKind) (direction : Direction)
    (filters : Filters) (anchor : Declaration) : List Usage :=
  (p.contracts.filter fun c => filters.accepts c (p.pathOf c)).flatMap fun c =>
    (c.candidates.filter fun (_, n) => direction.allows n.span anchor.span).filterMap
      fun (scope, n) => p.usageIn? settings anchor.name kind c scope n

section Anchor
variable (p : Program) (settings : Settings) (kind : SymbolKind) (direction : Direction)
  (filters : Filters) (anchor : Declaration)

/-- Over contracts the search goes on until a contract holds a usage that the cap leaves out. -/
theorem collectUsages_eq (cs : List Contract) {all : List Usage}
    (h : all.length ≤ settings.maxUsages.toNat) :
    p.collectUsages settings kind direction filters anchor cs ⟨all, false⟩ =
      .capped settings.maxUsages.toNat
        (all ++ (cs.filter fun c => filters.accepts c (p.pathOf c)).flatMap fun c =>
          c.candidates.filterMap (p.usageFrom? settings kind direction anchor c)) := by
  induction cs generalizing all with
  | nil => rw [collectUsages, List.filter_nil, List.flatMap_nil, List.append_nil,
      Usages.capped_of_le h]
  | cons c cs ih =>
    rw [collectUsages, List.filter_cons]
    by_cases haccepts : filters.accepts c (p.pathOf c) = true
    · rw [if_pos haccepts, if_pos haccepts, List.flatMap_cons, ← List.append_assoc,
        Usages.collect_eq c.candidates h]
      generalize all ++ c.candidates.filterMap (p.usageFrom? settings kind direction anchor c) =
        found
      by_cases hover : settings.maxUsages.toNat < found.length
      · rw [Usages.capped_append_of_lt hover]
        exact if_pos (decide_eq_true hover)
      · have hfits := Nat.not_lt.1 hover
        rw [Usages.capped_of_le hfits, ← ih hfits]
        rfl
    · rw [if_neg haccepts, if_neg haccepts, ih h]

theorem collectUsages_contracts :
    p.collectUsages settings kind direction filters anchor p.contracts {} =
      .capped settings.maxUsages.toNat (p.usagesOf settings kind direction filters anchor) := by
  have hcandidates : ∀ c : Contract,
      c.candidates.filterMap (p.usageFrom? settings kind direction anchor c) =
        (c.candidates.filter fun (_, n) => direction.allows n.span anchor.span).filterMap
          fun (scope, n) => p.usageIn? settings anchor.name kind c scope n := by
    intro c
    rw [List.filterMap_filter]
    rfl
  rw [p.collectUsages_eq settings kind direction filters anchor p.contracts (Nat.zero_le _),
    usagesOf, List.nil_append]
  simp only [hcandidates]

end Anchor

/-- The usages of a target, as they would be without a cap. -/
def allUsages (p : Program) (settings : Settings) (target : String) (kind : SymbolKind)
    (direction : Direction) (filters : Filters) : Except LookupError (List Usage) :=
  match QualifiedName.ofText? target.toList with
  | none => .error (.malformed target)
  | some q =>
    match p.declarationsOf q kind with
    | [] => .error (.notFound target kind)
    | anchor :: _ => .ok (p.usagesOf settings kind direction filters anchor)

/-- The search finds as many of all usages as the cap allows, and fails only where there is nothing
to search for. -/
theorem usages_eq (p : Program) (settings : Settings) (target : String) (kind : SymbolKind)
    (direction : Direction) (filters : Filters) :
    p.usages settings target kind direction filters =
      (p.allUsages settings target kind direction filters).map
        (.capped settings.maxUsages.toNat) := by
  rw [usages, allUsages]
  cases QualifiedName.ofText? target.toList with
  | none => rfl
  | some q =>
    cases hdeclared : p.declarationsOf q kind with
    | nil =>
      simp only [hdeclared]
      rfl
    | cons anchor rest =>
      simp only [hdeclared, collectUsages_contracts]
      rfl

/-- A smaller cap gives the first usages of those under a larger one, as many as it allows, and says
that there are more exactly when there are. -/
theorem usages_cap_prefix (p : Program) (settings : Settings) (target : String) (kind : SymbolKind)
    (direction : Direction) (filters : Filters) {cap cap' : UInt64} (hcap : cap ≤ cap') :
    let search (cap : UInt64) :=
      p.usages { settings with maxUsages := cap } target kind direction filters
    (∃ error, search cap = .error error ∧ search cap' = .error error ∧
      p.allUsages settings target kind direction filters = .error error) ∨
    ∃ found found' all, search cap = .ok found ∧ search cap' = .ok found' ∧
      p.allUsages settings target kind direction filters = .ok all ∧
      found.usages = found'.usages.take cap.toNat ∧
      (found.truncated = true ↔ cap.toNat < all.length) := by
  intro search
  have hsearch : ∀ cap, search cap = (p.allUsages settings target kind direction filters).map
      (.capped cap.toNat) :=
    fun cap => p.usages_eq { settings with maxUsages := cap } target kind direction filters
  cases hall : p.allUsages settings target kind direction filters with
  | error error => exact .inl ⟨error, by rw [hsearch, hall]; rfl, by rw [hsearch, hall]; rfl, rfl⟩
  | ok all =>
    refine .inr ⟨.capped cap.toNat all, .capped cap'.toNat all, all, by rw [hsearch, hall]; rfl,
      by rw [hsearch, hall]; rfl, rfl, ?_, decide_eq_true_iff⟩
    have hle : cap.toNat ≤ cap'.toNat := UInt64.le_iff_toNat_le.1 hcap
    simp only [Usages.capped, List.take_take, Nat.min_eq_left hle]

end Search

end Program

namespace Sample

/-- Two contracts that call `f`, on lines 1, 3 and 4; the first declares it on line 3. -/
def calling : Program :=
  let at_ (line : Nat) : Span := { line, column := 1, startByte := line }
  let call (line : Nat) : Node :=
    { kind := .expressionStatement, span := at_ line, excerpt := .whole "f();".toList }
  let caller (calls : List Node) : Function :=
    { name := "g", body := some { kind := .block, children := calls } }
  let upper : Contract :=
    { name := "Upper", functions := [caller [call 1, call 3], { name := "f", span := at_ 3 }] }
  let lower : Contract := { name := "Lower", functions := [caller [call 4]] }
  ((({} : Program).addContract upper).2.addContract lower).2

end Sample

namespace Program

/-- Of the three usages a cap of two leaves out the one in the second contract, and a cap of three
none. -/
theorem usages_cap_prefix_sample :
    let _ : SearchEngine := ⟨fun _ => true⟩
    let search (cap : UInt64) := Sample.calling.usages { maxUsages := cap } "f" .function .both {}
    (2 : UInt64) ≤ 3 ∧ ∃ found found' all, search 2 = .ok found ∧ search 3 = .ok found' ∧
      Sample.calling.allUsages {} "f" .function .both {} = .ok all ∧
      found'.usages.map (fun u => u.location.line) = [1, 3, 4] ∧ found'.truncated = false ∧
      found.usages = found'.usages.take 2 ∧ (found.truncated = true ↔ 2 < all.length) := by
  intro _ search
  have hle : (2 : UInt64) ≤ 3 := by decide
  have hrun : ∃ found' ∈ (search 3).toOption,
      found'.usages.map (fun u => u.location.line) = [1, 3, 4] ∧ found'.truncated = false := by
    decide +kernel
  obtain ⟨seen, hseen, hlines, hwhole⟩ := hrun
  rcases usages_cap_prefix Sample.calling {} "f" .function .both {} hle with
    ⟨error, -, herror, -⟩ | ⟨found, found', all, hfound, hfound', hall, hprefix, htruncated⟩
  · rw [show search 3 = .error error from herror] at hseen
    cases hseen
  · rw [show search 3 = .ok found' from hfound'] at hseen
    cases hseen
    exact ⟨hle, found, seen, all, hfound, hfound', hall, hlines, hwhole, hprefix, htruncated⟩

end Program

end ContractAtlas
