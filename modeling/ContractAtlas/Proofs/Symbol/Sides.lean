import ContractAtlas.Proofs.Symbol.Cap
import Mathlib.Data.List.Basic

/-! Usages on either side of a declaration. A search forward or backward picks those usages of the
whole search that stand on its side, in the same order. -/
namespace ContractAtlas

namespace Span
variable {s t : Span}

theorem isAfter_iff : s.isAfter t = true ↔
    t.file < s.file ∨ s.file = t.file ∧ t.startByte < s.startByte := by
  rw [isAfter, order, beq_iff_eq, Ordering.then_eq_gt, Nat.compare_eq_gt, Nat.compare_eq_gt,
    Nat.compare_eq_eq]

theorem isBefore_iff : s.isBefore t = true ↔
    s.file < t.file ∨ s.file = t.file ∧ s.startByte < t.startByte := by
  rw [isBefore, order, beq_iff_eq, Ordering.then_eq_lt, Nat.compare_eq_lt, Nat.compare_eq_lt,
    Nat.compare_eq_eq]

theorem not_isAfter_and_isBefore : ¬ (s.isAfter t = true ∧ s.isBefore t = true) := by
  rw [isAfter_iff, isBefore_iff]
  omega

/-- What is neither after nor before starts at the same place. -/
theorem on_neither_side_iff : ¬ s.isAfter t = true ∧ ¬ s.isBefore t = true ↔
    s.file = t.file ∧ s.startByte = t.startByte := by
  rw [isAfter_iff, isBefore_iff]
  omega

end Span

/-- A usage and the candidate in which it is found. -/
structure Occurrence where
  node : Node
  usage : Usage

namespace Program

section Search
variable [SearchEngine]

/-- Where the declaration `anchor` is used, in load order. -/
def occurrences (p : Program) (settings : Settings) (kind : SymbolKind) (filters : Filters)
    (anchor : Declaration) : List Occurrence :=
  (p.contracts.filter fun c => filters.accepts c (p.pathOf c)).flatMap fun c =>
    c.candidates.filterMap fun candidate =>
      (p.usageIn? settings anchor.name kind c candidate.1 candidate.2).map
        (Occurrence.mk candidate.2)

/-- A direction picks the occurrences whose places it takes in. -/
theorem usagesOf_eq (p : Program) (settings : Settings) (kind : SymbolKind) (direction : Direction)
    (filters : Filters) (anchor : Declaration) :
    p.usagesOf settings kind direction filters anchor =
      ((p.occurrences settings kind filters anchor).filter fun o =>
        direction.allows o.node.span anchor.span).map Occurrence.usage := by
  rw [usagesOf, occurrences, List.filter_flatMap, List.map_flatMap]
  refine List.flatMap_congr fun c _ => ?_
  rw [List.filter_filterMap, List.map_filterMap, List.filterMap_filter]
  refine List.filterMap_congr fun candidate _ => ?_
  dsimp only
  cases p.usageIn? settings anchor.name kind c candidate.1 candidate.2 with
  | none => exact ite_self none
  | some u =>
    rw [Option.map_some, Option.filter_some]
    split <;> rfl

/-- What is found depends on the direction, whether there is something to search for does not. -/
theorem allUsages_cases (p : Program) (settings : Settings) (target : String) (kind : SymbolKind)
    (filters : Filters) :
    (∃ error, ∀ direction, p.allUsages settings target kind direction filters = .error error) ∨
    ∃ q anchor rest, QualifiedName.ofText? target.toList = some q ∧
      p.declarationsOf q kind = anchor :: rest ∧ ∀ direction,
        p.allUsages settings target kind direction filters =
          .ok (p.usagesOf settings kind direction filters anchor) := by
  simp only [allUsages]
  cases QualifiedName.ofText? target.toList with
  | none => exact .inl ⟨_, fun _ => rfl⟩
  | some q =>
    cases hdeclared : p.declarationsOf q kind with
    | nil =>
      simp only [hdeclared]
      exact .inl ⟨_, fun _ => rfl⟩
    | cons anchor rest =>
      refine .inr ⟨q, anchor, rest, rfl, hdeclared, fun direction => ?_⟩
      simp only [hdeclared]

/-- The places among all occurrences of those that a direction takes in. -/
def positions (p : Program) (settings : Settings) (kind : SymbolKind) (filters : Filters)
    (anchor : Declaration) (direction : Direction) : List Nat :=
  (p.occurrences settings kind filters anchor).findIdxs fun o =>
    direction.allows o.node.span anchor.span

section Positions
variable {p : Program} {settings : Settings} {kind : SymbolKind} {filters : Filters}
  {anchor : Declaration}

theorem usagesOf_both : p.usagesOf settings kind .both filters anchor =
    (p.occurrences settings kind filters anchor).map Occurrence.usage := by
  rw [usagesOf_eq]
  exact congrArg (List.map _) (List.filter_eq_self.2 fun _ _ => rfl)

theorem length_usagesOf_le (direction : Direction) :
    (p.usagesOf settings kind direction filters anchor).length ≤
      (p.usagesOf settings kind .both filters anchor).length := by
  rw [usagesOf_eq, usagesOf_both, List.length_map, List.length_map]
  exact List.length_filter_le _ _

theorem map_some_usagesOf (direction : Direction) :
    (p.usagesOf settings kind direction filters anchor).map some =
      (p.positions settings kind filters anchor direction).map
        ((p.usagesOf settings kind .both filters anchor)[·]?) := by
  rw [usagesOf_both, usagesOf_eq, positions]
  refine List.ext_getElem ?_ fun i _ hi => ?_
  · simp only [List.length_map, List.length_findIdxs, List.countP_eq_length_filter]
  · have hfound := List.getElem_findIdxs_lt (List.length_map _ ▸ hi)
    simp only [List.getElem_map, List.getElem?_map, List.getElem?_eq_getElem hfound,
      Option.map_some, List.getElem_filter_eq_getElem_getElem_findIdxs]

theorem mem_positions_iff {direction : Direction} {i : Nat} {o : Occurrence}
    (ho : (p.occurrences settings kind filters anchor)[i]? = some o) :
    i ∈ p.positions settings kind filters anchor direction ↔
      direction.allows o.node.span anchor.span = true := by
  obtain ⟨hi, rfl⟩ := List.getElem?_eq_some_iff.1 ho
  exact List.mem_findIdxs_iff_pos_getElem hi

/-- No place is both after the declaration and before it. -/
theorem disjoint_positions : (p.positions settings kind filters anchor .forward).Disjoint
    (p.positions settings kind filters anchor .backward) := by
  intro i hafter hbefore
  obtain ⟨hi, -⟩ := List.mem_findIdxs_iff_exists_getElem_pos.1 hafter
  have ho := List.getElem?_eq_getElem hi
  exact Span.not_isAfter_and_isBefore ⟨(mem_positions_iff ho).1 hafter,
    (mem_positions_iff ho).1 hbefore⟩

end Positions

/-- If the cap cuts off nothing, the usages forward and backward of the first declaration are those
at certain positions among the usages both ways, in the same order and no position in both. The
positions that are in neither are those of usages that start where the declaration does. -/
theorem usages_split_by_direction (p : Program) (settings : Settings) (target : String)
    (kind : SymbolKind) (filters : Filters)
    (hcap : ∀ both, p.usages settings target kind .both filters = .ok both →
      both.truncated = false) :
    (∃ error, ∀ direction, p.usages settings target kind direction filters = .error error) ∨
    ∃ q anchor rest both forward backward, QualifiedName.ofText? target.toList = some q ∧
      p.declarationsOf q kind = anchor :: rest ∧
      p.usages settings target kind .both filters = .ok ⟨both, false⟩ ∧
      p.usages settings target kind .forward filters = .ok ⟨forward, false⟩ ∧
      p.usages settings target kind .backward filters = .ok ⟨backward, false⟩ ∧
      both = (p.occurrences settings kind filters anchor).map Occurrence.usage ∧
      ∃ after before : List Nat, after.Pairwise (· < ·) ∧ before.Pairwise (· < ·) ∧
        after.Disjoint before ∧
        forward.map some = after.map (both[·]?) ∧ backward.map some = before.map (both[·]?) ∧
        ∀ i o, (p.occurrences settings kind filters anchor)[i]? = some o →
          (i ∉ after ∧ i ∉ before ↔ o.node.span.file = anchor.span.file ∧
            o.node.span.startByte = anchor.span.startByte) := by
  rcases p.allUsages_cases settings target kind filters with
    ⟨error, herror⟩ | ⟨q, anchor, rest, hname, hdeclared, hall⟩
  · refine .inl ⟨error, fun direction => ?_⟩
    rw [usages_eq, herror]
    rfl
  · have hsearch : ∀ direction, p.usages settings target kind direction filters =
        .ok (.capped settings.maxUsages.toNat
          (p.usagesOf settings kind direction filters anchor)) := by
      intro direction
      rw [usages_eq, hall]
      rfl
    have hfits : (p.usagesOf settings kind .both filters anchor).length ≤
        settings.maxUsages.toNat :=
      Nat.not_lt.1 (of_decide_eq_false (hcap _ (hsearch .both)))
    have hwhole : ∀ direction, p.usages settings target kind direction filters =
        .ok ⟨p.usagesOf settings kind direction filters anchor, false⟩ := by
      intro direction
      rw [hsearch, Usages.capped_of_le (Nat.le_trans (length_usagesOf_le direction) hfits)]
    refine .inr ⟨q, anchor, rest, _, _, _, hname, hdeclared, hwhole .both, hwhole .forward,
      hwhole .backward, usagesOf_both, p.positions settings kind filters anchor .forward,
      p.positions settings kind filters anchor .backward, List.pairwise_findIdxs,
      List.pairwise_findIdxs, disjoint_positions, map_some_usagesOf .forward,
      map_some_usagesOf .backward, fun i o ho => ?_⟩
    rw [mem_positions_iff ho, mem_positions_iff ho]
    exact Span.on_neither_side_iff

end Search

/-- In the sample the usage on line 4 is forward of the declaration on line 3, that on line 1
backward, and that on line 3 neither. -/
theorem usages_split_by_direction_sample :
    let _ : SearchEngine := ⟨fun _ => true⟩
    let search := fun direction => Sample.calling.usages {} "f" .function direction {}
    (∀ both, search .both = .ok both → both.truncated = false) ∧
    ∃ both forward backward, search .both = .ok ⟨both, false⟩ ∧
      search .forward = .ok ⟨forward, false⟩ ∧
      search .backward = .ok ⟨backward, false⟩ ∧ both.map (fun u => u.location.line) = [1, 3, 4] ∧
      forward.map (fun u => u.location.line) = [4] ∧ backward.map (fun u => u.location.line) = [1] ∧
      ∃ after before : List Nat, after.Disjoint before ∧ forward.map some = after.map (both[·]?) ∧
        backward.map some = before.map (both[·]?) ∧ 1 ∉ after ∧ 1 ∉ before := by
  intro _ search
  have hcap : ∀ both, search .both = .ok both → both.truncated = false := by
    intro both hboth
    have hrun : (search .both).toOption.map Usages.truncated = some false := by decide +kernel
    rw [hboth] at hrun
    exact Option.some.inj hrun
  have hlines : ∀ direction, (search direction).toOption.map
      (fun found => found.usages.map fun u => u.location.line) =
        some (if direction = .both then [1, 3, 4]
          else if direction = .forward then [4] else [1]) := by
    intro direction
    cases direction <;> decide +kernel
  rcases usages_split_by_direction Sample.calling {} "f" .function {} hcap with ⟨error, herror⟩ |
    ⟨q, anchor, rest, both, forward, backward, hq, hdeclared, hboth, hforward, hbackward, -, after,
      before, -, -, hdisjoint, hafter, hbefore, hneither⟩
  · have hnone := hlines .both
    rw [show search .both = .error error from herror .both] at hnone
    cases hnone
  · have hread : QualifiedName.ofText? "f".toList = some { name := "f" } := by decide
    cases hq.symm.trans hread
    have hsame : ∃ d ∈ (Sample.calling.declarationsOf { name := "f" } .function).head?,
        ∃ o ∈ (Sample.calling.occurrences {} .function {} d)[1]?,
          o.node.span.file = d.span.file ∧ o.node.span.startByte = d.span.startByte := by
      decide +kernel
    rw [hdeclared] at hsame
    obtain ⟨d, hd, o, ho, hplace⟩ := hsame
    cases hd
    have hline : ∀ {direction} {found : List Usage}, search direction = .ok ⟨found, false⟩ →
        (found.map fun u => u.location.line) =
          if direction = .both then [1, 3, 4] else if direction = .forward then [4] else [1] := by
      intro direction found hfound
      have hseen := hlines direction
      rw [hfound] at hseen
      exact Option.some.inj hseen
    exact ⟨hcap, both, forward, backward, hboth, hforward, hbackward, hline hboth, hline hforward,
      hline hbackward, after, before, hdisjoint, hafter, hbefore, (hneither 1 o ho).2 hplace⟩

end Program

end ContractAtlas
