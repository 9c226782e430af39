import ContractAtlas.Import.Graph

/-! Which loaded file an import means. A file of exactly the name that the import leads to should
come before files whose longer names end in that name; it does unless one of those is loaded
first. -/
namespace ContractAtlas

namespace Import

/-- The directories on the way to a file, outermost first. -/
def directory (file : Text) : List Text := (Text.splitAt '/' file).dropLast

/-- The segments of a path lead from one place to another: empty ones and dots stay, two dots go up
as far as there is a directory, and all others go down. -/
inductive Walk : (place segments destination : List Text) → Prop
  | arrive (place : List Text) : Walk place [] place
  | stay {place segments destination : List Text} {segment : Text}
    (hstay : segment = [] ∨ segment = ['.']) (hrest : Walk place segments destination) :
    Walk place (segment :: segments) destination
  | up {place segments destination : List Text} (hrest : Walk place.dropLast segments destination) :
    Walk place (['.', '.'] :: segments) destination
  | down {place segments destination : List Text} {segment : Text}
    (hname : segment ≠ [] ∧ segment ≠ ['.'] ∧ segment ≠ ['.', '.'])
    (hrest : Walk (place ++ [segment]) segments destination) :
    Walk place (segment :: segments) destination

/-- The name to which an import leads: a relative path goes from the directory of the importing
file, and any other path is the name itself. -/
def IsTarget (importer path target : Text) : Prop :=
  if isRelative path then
    ∃ destination, Walk (directory importer) (Text.splitAt '/' path) destination ∧
      target = Text.join ['/'] destination
  else target = path

section Join
variable {place segments destination : List Text} {segment : Text}

theorem enter_of_stay (h : segment = [] ∨ segment = ['.']) (place : List Text) :
    enter place segment = place := by
  rcases h with rfl | rfl <;> rfl

theorem enter_of_name (h : segment ≠ [] ∧ segment ≠ ['.'] ∧ segment ≠ ['.', '.'])
    (place : List Text) : enter place segment = segment :: place := by
  simp [enter, h]

/-- Segments lead from a place to exactly one other. -/
theorem walk_iff :
    Walk place segments destination ↔
      (segments.foldl enter place.reverse).reverse = destination := by
  constructor
  · intro h
    induction h with
    | arrive place => exact List.reverse_reverse place
    | stay hstay _ ih => rwa [List.foldl_cons, enter_of_stay hstay]
    | up _ ih =>
      rw [← List.tail_reverse] at ih
      exact ih
    | down hname _ ih =>
      rw [List.reverse_concat] at ih
      rwa [List.foldl_cons, enter_of_name hname]
  · rintro rfl
    induction segments generalizing place with
    | nil =>
      rw [List.foldl_nil, List.reverse_reverse]
      exact .arrive place
    | cons segment segments ih =>
      rw [List.foldl_cons]
      by_cases hstay : segment = [] ∨ segment = ['.']
      · rw [enter_of_stay hstay]
        exact .stay hstay ih
      · by_cases hup : segment = ['.', '.']
        · subst hup
          have hrest := @ih place.dropLast
          rw [← List.tail_reverse] at hrest
          exact .up hrest
        · rw [not_or] at hstay
          have hname : segment ≠ [] ∧ segment ≠ ['.'] ∧ segment ≠ ['.', '.'] :=
            ⟨hstay.1, hstay.2, hup⟩
          rw [enter_of_name hname, ← List.reverse_concat]
          exact .down hname ih

/-- The name that resolution looks for. -/
def target (importer path : Text) : Text :=
  if isRelative path then joinRelative importer path else path

theorem isTarget_iff {importer path t : Text} :
    IsTarget importer path t ↔ t = target importer path := by
  rw [IsTarget, target]
  split
  · simp only [walk_iff, exists_eq_left']
    rfl
  · exact Iff.rfl

end Join

section Choice
variable {loaded : List String} {target : Text} {name : String}

/-- The name ends in a slash and the target. -/
def endsIn (target : Text) (name : String) : Bool := ('/' :: target).isSuffixOf name.toList

/-- The loaded file that a target should mean: the one of that name if there is one, else the first
whose name ends in it. The target itself stands for files that are not loaded. -/
def preferred (loaded : List String) (target : Text) : String :=
  if loaded.contains (String.ofList target) then String.ofList target
  else (loaded.find? (endsIn target)).getD (String.ofList target)

/-- The first name that is the target or ends in it. -/
def firstMatch (loaded : List String) (target : Text) : Option String :=
  loaded.find? fun name => name.toList = target || endsIn target name

theorem resolve_eq (loaded : List String) (importer path : String) :
    resolve loaded importer path =
      (firstMatch loaded (Import.target importer.toList path.toList)).getD
        (String.ofList (Import.target importer.toList path.toList)) := rfl

/-- Among other names, matches are those that end in the target. -/
theorem firstMatch_of_not_mem (h : String.ofList target ∉ loaded) :
    firstMatch loaded target = loaded.find? (endsIn target) := by
  induction loaded with
  | nil => rfl
  | cons name loaded ih =>
    obtain ⟨hname, hloaded⟩ := not_or.1 (mt List.mem_cons.2 h)
    have hother : name.toList ≠ target := fun he => hname (by rw [← he, String.ofList_toList])
    rw [firstMatch, List.find?_cons, List.find?_cons, ← ih hloaded, firstMatch]
    simp [hother]

theorem firstMatch_append {before after : List String} (h : String.ofList target ∉ before) :
    firstMatch (before ++ String.ofList target :: after) target =
      (before.find? (endsIn target)).or (some (String.ofList target)) := by
  rw [← firstMatch_of_not_mem h, firstMatch, List.find?_append, firstMatch]
  simp

/-- The first match is the file that is preferred, unless a name that ends in the target comes
before the target itself; then it is the first such name. -/
theorem firstMatch_getD_eq_preferred_iff :
    ((firstMatch loaded target).getD (String.ofList target) = preferred loaded target ↔
      (String.ofList target ∈ loaded →
        ∀ name ∈ loaded.takeWhile (· != String.ofList target), ¬ '/' :: target <:+ name.toList)) ∧
    ((firstMatch loaded target).getD (String.ofList target) ≠ preferred loaded target →
      loaded.find? (endsIn target) =
        some ((firstMatch loaded target).getD (String.ofList target))) := by
  by_cases hloaded : String.ofList target ∈ loaded
  · obtain ⟨before, after, rfl, hbefore⟩ := List.eq_append_cons_of_mem hloaded
    have hne : ∀ name ∈ before, (name != String.ofList target) = true :=
      fun name hname => bne_iff_ne.2 fun he => hbefore (he ▸ hname)
    have hpreferred :
        preferred (before ++ String.ofList target :: after) target = String.ofList target :=
      if_pos (List.contains_iff_mem.2 hloaded)
    have hearlier : (before ++ String.ofList target :: after).takeWhile
      (· != String.ofList target) =
        before := by
      rw [List.takeWhile_append_of_pos hne]
      simp
    rw [hpreferred, firstMatch_append hbefore, hearlier, List.find?_append]
    cases hfound : before.find? (endsIn target) with
    | none =>
      refine ⟨iff_of_true rfl fun _ name hname hends => ?_, fun h => absurd rfl h⟩
      exact List.find?_eq_none.1 hfound name hname (List.isSuffixOf_iff_suffix.2 hends)
    | some name =>
      have hname := List.mem_of_find?_eq_some hfound
      have hends : endsIn target name = true := List.find?_some hfound
      refine ⟨iff_of_false (fun he => hbefore (he ▸ hname)) fun h => ?_, fun _ => rfl⟩
      exact h hloaded name hname (List.isSuffixOf_iff_suffix.1 hends)
  · have hpreferred : preferred loaded target =
        (firstMatch loaded target).getD (String.ofList target) := by
      rw [firstMatch_of_not_mem hloaded]
      exact if_neg fun h => hloaded (List.contains_iff_mem.1 h)
    exact ⟨iff_of_true hpreferred.symm fun h => absurd h hloaded, fun h => absurd hpreferred.symm h⟩

end Choice

/-- Whatever files are loaded: an import leads to exactly one name, and resolves to the file of that
name if it is loaded, else to the first file whose name ends in it behind a slash, else to the name
itself, unless a file whose name ends in it is loaded before the file of that name. In that case it
resolves to the first file whose name ends in it. -/
theorem resolve_exact_iff (loaded : List String) (importer path : String) :
    ∃ target, (∀ t, IsTarget importer.toList path.toList t ↔ t = target) ∧
      (resolve loaded importer path = preferred loaded target ↔
        (String.ofList target ∈ loaded →
          ∀ name ∈ loaded.takeWhile (· != String.ofList target), ¬ '/' :: target <:+ name.toList)) ∧
      (resolve loaded importer path ≠ preferred loaded target →
        loaded.find? (endsIn target) = some (resolve loaded importer path)) := by
  refine ⟨target importer.toList path.toList, fun t => isTarget_iff, ?_⟩
  rw [resolve_eq]
  exact firstMatch_getD_eq_preferred_iff

/-- The file beside the importing one is loaded, and yet a file of a longer name stands in for
it. -/
theorem exact_name_passed_over :
    IsTarget "B.sol".toList "./A.sol".toList "A.sol".toList ∧
      "A.sol" ∈ ["lib/A.sol", "A.sol", "B.sol"] ∧
      resolve ["lib/A.sol", "A.sol", "B.sol"] "B.sol" "./A.sol" = "lib/A.sol" := by
  refine ⟨isTarget_iff.2 ?_, by decide, by decide +kernel⟩
  decide +kernel

end Import

end ContractAtlas
