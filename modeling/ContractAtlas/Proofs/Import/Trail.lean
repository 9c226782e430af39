import ContractAtlas.Proofs.Import.Ring

/-! Trails through the import graph: from a loaded file along imports, to no file twice. The trails
to a file are put in order by where they part: the one that goes on with the earlier file, in the
order of loading or of the import statements, is before the other. -/
namespace ContractAtlas

namespace ImportGraph
variable {g : ImportGraph} {path s t : List String} {a b : String}

/-- The files with which a trail can go on: any loaded one at its start, then the imports of its
last file. -/
def choices (g : ImportGraph) (path : List String) : List String :=
  path.getLast?.elim (g.map Prod.fst) g.importsOf

@[simp] theorem choices_nil (g : ImportGraph) : g.choices [] = g.map Prod.fst := rfl

@[simp] theorem choices_concat (g : ImportGraph) (path : List String) (a : String) :
    g.choices (path ++ [a]) = g.importsOf a := by
  rw [choices, List.getLast?_concat, Option.elim_some]

/-- Distinct files, a loaded one first and then each one imported by the one before. -/
structure IsTrail (g : ImportGraph) (path : List String) : Prop where
  start : ∀ a ∈ path.head?, a ∈ g.map Prod.fst
  joined : path.IsChain g.Imports
  distinct : path.Nodup

theorem isTrail_nil (g : ImportGraph) : g.IsTrail [] :=
  ⟨fun _ h => absurd h (Option.not_mem_none _), .nil, .nil⟩

theorem IsTrail.of_prefix (h : g.IsTrail t) (hs : s <+: t) : g.IsTrail s where
  start := by
    intro a ha
    obtain ⟨rest, rfl⟩ := hs
    apply h.start
    rw [List.head?_append, Option.mem_def.1 ha]
    rfl
  joined := h.joined.prefix hs
  distinct := h.distinct.sublist hs.sublist

theorem isTrail_concat :
    g.IsTrail (path ++ [a]) ↔ g.IsTrail path ∧ a ∈ g.choices path ∧ a ∉ path := by
  constructor
  · intro h
    refine ⟨h.of_prefix (List.prefix_append _ _), ?_, fun ha => ?_⟩
    · cases path using List.reverseRecOn with
      | nil => exact h.start a rfl
      | append_singleton front b =>
        rw [choices_concat]
        exact (List.isChain_append.1 h.joined).2.2 b List.getLast?_concat a rfl
    · exact List.disjoint_of_nodup_append h.distinct ha (List.mem_singleton_self a)
  · rintro ⟨h, hchoice, hnew⟩
    have hdistinct : (path ++ [a]).Nodup := List.concat_eq_append ▸ h.distinct.concat hnew
    cases path using List.reverseRecOn with
    | nil => exact ⟨fun b hb => Option.some.inj hb ▸ hchoice, .singleton a, hdistinct⟩
    | append_singleton front b =>
      rw [choices_concat] at hchoice
      refine ⟨fun c hc => h.start c ?_, ?_, hdistinct⟩
      · rwa [List.head?_append_of_ne_nil _ (List.concat_ne_nil b front)] at hc
      · refine List.isChain_append.2 ⟨h.joined, .singleton a, fun x hx y hy => ?_⟩
        rw [List.getLast?_concat] at hx
        cases hx
        cases hy
        exact hchoice

/-- Where the two trails part, `s` goes on with a choice that comes before that of `t`. -/
def Precedes (g : ImportGraph) (s t : List String) : Prop :=
  ∃ front a b, front ++ [a] <+: s ∧ front ++ [b] <+: t ∧
    (g.choices front).idxOf a < (g.choices front).idxOf b

theorem not_precedes_nil : ¬ g.Precedes s [] := by
  rintro ⟨front, a, b, -, hb, -⟩
  exact List.append_ne_nil_of_right_ne_nil front (List.cons_ne_nil b []) (List.prefix_nil.1 hb)

/-- A trail that comes before one with one file more comes before it already without that file, or
takes an earlier choice in place of that file. -/
theorem precedes_concat (h : g.Precedes s (path ++ [b])) :
    g.Precedes s path ∨
      ∃ a, path ++ [a] <+: s ∧ (g.choices path).idxOf a < (g.choices path).idxOf b := by
  obtain ⟨front, a, c, ha, hc, hlt⟩ := h
  rcases List.prefix_concat_iff.1 hc with he | hc
  · obtain ⟨rfl, rfl⟩ := List.append_singleton_inj.1 he
    exact .inr ⟨a, ha, hlt⟩
  · exact .inl ⟨front, a, c, ha, hc, hlt⟩

/-- Two lists are one the beginning of the other, or part at some place. -/
private theorem prefix_or_part (s t : List String) :
    s <+: t ∨ t <+: s ∨ ∃ front a b, a ≠ b ∧ front ++ [a] <+: s ∧ front ++ [b] <+: t := by
  induction s generalizing t with
  | nil => exact .inl List.nil_prefix
  | cons a s ih =>
    cases t with
    | nil => exact .inr (.inl List.nil_prefix)
    | cons b t =>
      by_cases hab : a = b
      · subst hab
        rcases ih t with h | h | ⟨front, x, y, hne, hx, hy⟩
        · exact .inl (List.cons_prefix_cons.2 ⟨rfl, h⟩)
        · exact .inr (.inl (List.cons_prefix_cons.2 ⟨rfl, h⟩))
        · exact .inr (.inr ⟨a :: front, x, y, hne, List.cons_prefix_cons.2 ⟨rfl, hx⟩,
            List.cons_prefix_cons.2 ⟨rfl, hy⟩⟩)
      · exact .inr (.inr ⟨[], a, b, hab, List.cons_prefix_cons.2 ⟨rfl, List.nil_prefix⟩,
          List.cons_prefix_cons.2 ⟨rfl, List.nil_prefix⟩⟩)

/-- A trail does not come back to its last file, so it goes on to other files. -/
private theorem eq_of_prefix_of_getLast? (ht : t.Nodup) (hs : s <+: t)
    (hlast : s.getLast? = t.getLast?) : s = t := by
  obtain ⟨rest, rfl⟩ := hs
  cases rest using List.reverseRecOn with
  | nil => rw [List.append_nil]
  | append_singleton rest b =>
    rw [← List.append_assoc, List.getLast?_concat] at hlast
    have hb : b ∈ rest ++ [b] := List.mem_append_right _ (List.mem_singleton_self b)
    exact (List.disjoint_of_nodup_append ht (List.mem_of_getLast? hlast) hb).elim

theorem precedes_or_precedes (hs : g.IsTrail s) (ht : g.IsTrail t)
    (hlast : s.getLast? = t.getLast?) (hne : s ≠ t) : g.Precedes s t ∨ g.Precedes t s := by
  rcases prefix_or_part s t with h | h | ⟨front, a, b, hab, ha, hb⟩
  · exact absurd (eq_of_prefix_of_getLast? ht.distinct h hlast) hne
  · exact absurd (eq_of_prefix_of_getLast? hs.distinct h hlast.symm).symm hne
  · have hachoice := (isTrail_concat.1 (hs.of_prefix ha)).2.1
    have hplaces : (g.choices front).idxOf a ≠ (g.choices front).idxOf b :=
      fun he => hab ((List.idxOf_inj hachoice).1 he)
    rcases Nat.lt_or_gt_of_ne hplaces with hlt | hlt
    · exact .inl ⟨front, a, b, ha, hb, hlt⟩
    · exact .inr ⟨front, b, a, hb, ha, hlt⟩

/-- The first of all trails to its last file. -/
structure FirstTrail (g : ImportGraph) (trail : List String) : Prop extends IsTrail g trail where
  first : ∀ other, g.IsTrail other → other.getLast? = trail.getLast? → ¬ g.Precedes other trail

theorem FirstTrail.unique (hs : g.FirstTrail s) (ht : g.FirstTrail t)
    (hlast : s.getLast? = t.getLast?) : s = t := by
  by_contra hne
  rcases precedes_or_precedes hs.toIsTrail ht.toIsTrail hlast hne with h | h
  · exact ht.first s hs.toIsTrail hlast h
  · exact hs.first t ht.toIsTrail hlast.symm h

end ImportGraph

end ContractAtlas
