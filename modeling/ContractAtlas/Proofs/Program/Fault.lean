import ContractAtlas.Proofs.Program.Loading

/-! The fault that loading reports. The search for it leaves out trees without a fault and stops at
the first one it meets, which is the first one of all trees below, each before its children. -/
namespace ContractAtlas

namespace ParseTree

theorem isFault_iff {t : ParseTree} : t.isFault = true ↔ t.IsFault := by
  rw [isFault, Bool.or_eq_true]
  rfl

theorem subtrees_eq (t : ParseTree) : t.subtrees = t :: t.children.flatMap subtrees := by
  rcases t with ⟨kind, start, stop, isNamed, isExtra, isError, isMissing, children, fields⟩
  rw [subtrees, subtreesIn_eq]

theorem firstFaultIn?_eq (ts : List ParseTree) : firstFaultIn? ts = ts.findSome? firstFault? := by
  induction ts with
  | nil => rfl
  | cons t ts ih =>
    rw [firstFaultIn?, List.findSome?_cons, ih]
    cases t.firstFault? <;> rfl

/-- One step of the search: the tree itself, else its children, unless none of them has a fault. -/
theorem firstFault?_eq (t : ParseTree) :
    t.firstFault? = if t.isFault then some t
      else if t.children.any hasFault then t.children.findSome? firstFault? else none := by
  rcases t with ⟨kind, start, stop, isNamed, isExtra, isError, isMissing, children, fields⟩
  rw [firstFault?, anyFault_eq, firstFaultIn?_eq]
  rfl

/-- Where no child has a fault, there is none to find below them. -/
theorem find?_eq_none_of_any_hasFault {ts : List ParseTree} (h : ¬ ts.any hasFault = true) :
    (ts.flatMap subtrees).find? isFault = none := by
  refine List.find?_eq_none.2 fun x hx hfault => h ?_
  obtain ⟨t, ht, hx⟩ := List.mem_flatMap.1 hx
  exact List.any_eq_true.2 ⟨t, ht, hasFault_iff.2 ⟨x, hx, isFault_iff.1 hfault⟩⟩

private theorem findSome?_firstFault? {ts : List ParseTree}
    (h : ∀ t ∈ ts, t.firstFault? = t.subtrees.find? isFault) :
    ts.findSome? firstFault? = (ts.flatMap subtrees).find? isFault := by
  induction ts with
  | nil => rfl
  | cons t ts ih =>
    obtain ⟨ht, hts⟩ := List.forall_mem_cons.1 h
    rw [List.findSome?_cons, List.flatMap_cons, List.find?_append, ht, ih hts]
    cases t.subtrees.find? isFault <;> rfl

/-- Leaving out trees without a fault does not change what is found. -/
theorem firstFault?_eq_find? (t : ParseTree) : t.firstFault? = t.subtrees.find? isFault := by
  induction t with
  | tree t ih =>
    rw [firstFault?_eq, subtrees_eq, List.find?_cons]
    cases t.isFault with
    | true => rfl
    | false =>
      by_cases hany : t.children.any hasFault = true
      · rw [if_pos hany, findSome?_firstFault? ih]
        rfl
      · rw [if_neg hany, find?_eq_none_of_any_hasFault hany]
        rfl

end ParseTree

namespace SourceUnit

/-- The report of a fault: its row and column, both counted from one, and what is missing there, if
anything is. -/
def report (u : SourceUnit) (fault : ParseTree) : LoadError :=
  .syntaxFault ((u.text.rowColumn fault.start).1 + 1) ((u.text.rowColumn fault.start).2 + 1)
    (if fault.isMissing then some fault.kind else none)

theorem fault?_eq (u : SourceUnit) :
    u.fault? = (u.tree.subtrees.find? ParseTree.isFault).map u.report := by
  rw [fault?, ParseTree.firstFault?_eq_find?]
  rfl

/-- A fault is reported by the search for it and by no later stage. -/
theorem read_eq_syntaxFault_iff {u : SourceUnit} {file line column : Nat}
    {missing : Option String} :
    u.read file = .error (.syntaxFault line column missing) ↔
      u.fault? = some (.syntaxFault line column missing) := by
  rw [read]
  cases u.fault? with
  | some e => rw [Except.error.injEq, Option.some.injEq]
  | none =>
    refine iff_of_false (fun h => ?_) (Option.some_ne_none _).symm
    cases hrefusal : SourceFile.refusal? u.text with
    | some cause =>
      rw [hrefusal] at h
      cases h
    | none =>
      rw [hrefusal] at h
      cases himports : (u.lowered file).imports (u.source file) with
      | error e =>
        simp only [himports] at h
        cases h
      | ok imports =>
        simp only [himports] at h
        cases h

/-- The search finds the first fault of all subtrees, each before its children. A source is rejected
for its syntax if and only if there is a fault, and the report, which every load ends with, names
the row and column of this first one. -/
theorem fault?_exact (u : SourceUnit) :
    u.tree.firstFault? = u.tree.subtrees.find? ParseTree.isFault ∧
      (u.fault?.isSome = true ↔ ∃ t ∈ u.tree.subtrees, t.isFault = true) ∧
      u.fault? = (u.tree.subtrees.find? ParseTree.isFault).map u.report ∧
      ∀ (p : Program) (analysis : Option Settings) (line column : Nat) (missing : Option String),
        p.loadWith analysis u = .error (.syntaxFault line column missing) ↔
          u.fault? = some (.syntaxFault line column missing) := by
  refine ⟨u.tree.firstFault?_eq_find?, ?_, u.fault?_eq, fun p analysis line column missing => ?_⟩
  · rw [fault?_eq, Option.isSome_map, List.find?_isSome]
  · rw [p.loadWith_eq_error_iff, read_eq_syntaxFault_iff]

/-- A fault far down in the first child comes before the second child. -/
example :
    (Sample.form "a" 0 3
      [Sample.form "b" 0 1 [{ kind := "c", start := 1, stop := 1, isMissing := true }],
       { kind := "d", start := 2, stop := 3, isError := true }]).firstFault?.map ParseTree.kind =
         some "c" := by
  decide

end SourceUnit

end ContractAtlas
