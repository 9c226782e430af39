import ContractAtlas.Proofs.Import.Trail
import Mathlib.Data.List.TakeWhile

/-! The search for cycles, run by run. A file is entered once, on the first of all trails to it, and
whatever leads from it back to that trail is reported. -/
namespace ContractAtlas

namespace ImportGraph

namespace CycleSearch
variable {g : ImportGraph} {depth : Nat} {path past ahead files visited visited' : List String}
  {s s' mid : CycleSearch} {file v : String}

/-- Marks a file as entered. -/
def enter (s : CycleSearch) (file : String) : CycleSearch := { s with visited := file :: s.visited }

theorem seen_subset_report (s : CycleSearch) (members : List String) (closing : String) :
    s.seen ⊆ (s.report members closing).seen := by
  rw [report]
  split
  · exact List.Subset.refl _
  · exact List.subset_cons_self _ _

@[simp] theorem visited_report (s : CycleSearch) (members : List String) (closing : String) :
    (s.report members closing).visited = s.visited := by
  rw [report]
  split <;> rfl

theorem explore_of_mem (h : file ∈ path) :
    explore g (depth + 1) path s file = s.report (path.dropWhile (· != file)) file := by
  obtain ⟨front, back, -, hdrop⟩ := dropWhile_of_mem h
  rw [explore, hdrop]

private theorem dropWhile_of_not_mem (h : file ∉ path) : path.dropWhile (· != file) = [] :=
  List.dropWhile_eq_nil_iff.2 fun _ ha => bne_iff_ne.2 fun he => h (he ▸ ha)

theorem explore_of_visited (hpath : file ∉ path) (h : file ∈ s.visited) :
    explore g (depth + 1) path s file = s := by
  rw [explore, dropWhile_of_not_mem hpath]
  exact if_pos (List.contains_iff_mem.2 h)

theorem explore_of_new (hpath : file ∉ path) (h : file ∉ s.visited) :
    explore g (depth + 1) path s file =
      (g.importsOf file).foldl (explore g depth (path ++ [file])) (s.enter file) := by
  rw [explore, dropWhile_of_not_mem hpath]
  exact if_neg fun hc => h (List.contains_iff_mem.1 hc)

/-- A run of the search: from the end of `path` it goes on to each of `files`, and gets from `s` to
`s'`. Nothing bounds its depth. -/
inductive Searches (g : ImportGraph) :
    (path : List String) → CycleSearch → (files : List String) → CycleSearch → Prop
  | finish (path : List String) (s : CycleSearch) : Searches g path s [] s
  /-- The file lies on the path, and a cycle is closed. -/
  | close {path files : List String} {s s' : CycleSearch} {file : String} (hpath : file ∈ path)
    (hrest : Searches g path (s.report (path.dropWhile (· != file)) file) files s') :
    Searches g path s (file :: files) s'
  /-- The file was entered before, and the search passes it by. -/
  | pass {path files : List String} {s s' : CycleSearch} {file : String} (hpath : file ∉ path)
    (hvisited : file ∈ s.visited) (hrest : Searches g path s files s') :
    Searches g path s (file :: files) s'
  /-- The file is new, and the search goes through its imports before it comes back. -/
  | enter {path files : List String} {s mid s' : CycleSearch} {file : String} (hpath : file ∉ path)
    (hvisited : file ∉ s.visited)
    (hinto : Searches g (path ++ [file]) (s.enter file) (g.importsOf file) mid)
    (hrest : Searches g path mid files s') : Searches g path s (file :: files) s'

/-- A depth beyond the number of files is as good as none: a path through distinct files that have
imports is no longer than that. -/
theorem searches_foldl (hdistinct : path.Nodup) (hkeys : path ⊆ g.map Prod.fst)
    (hdepth : g.length + 2 ≤ depth + path.length) (files : List String) (s : CycleSearch) :
    Searches g path s files (files.foldl (explore g depth path) s) := by
  induction depth generalizing path files s with
  | zero =>
    have hlength := (List.subperm_of_subset hdistinct hkeys).length_le
    rw [List.length_map] at hlength
    omega
  | succ depth ih =>
    induction files generalizing s with
    | nil => exact .finish path s
    | cons file files ihfiles =>
      rw [List.foldl_cons]
      by_cases hpath : file ∈ path
      · rw [explore_of_mem hpath]
        exact .close hpath (ihfiles _)
      · by_cases hvisited : file ∈ s.visited
        · rw [explore_of_visited hpath hvisited]
          exact .pass hpath hvisited (ihfiles _)
        · rw [explore_of_new hpath hvisited]
          refine .enter hpath hvisited ?_ (ihfiles _)
          -- only a file with imports makes the path longer for the search, and that one is loaded
          cases himports : g.importsOf file with
          | nil => exact .finish _ _
          | cons next nexts =>
            have hnext : next ∈ g.importsOf file := himports ▸ List.mem_cons_self
            have hfile := mem_keys_of_imports hnext
            rw [← himports]
            refine ih (List.concat_eq_append ▸ hdistinct.concat hpath) ?_ ?_ _ _
            · exact List.append_subset.2 ⟨hkeys, List.cons_subset.2 ⟨hfile, List.nil_subset _⟩⟩
            · rw [List.length_append, List.length_singleton]
              omega

/-- The whole search is a run from the loaded files. -/
theorem exists_searches (g : ImportGraph) :
    ∃ s, Searches g [] {} (g.map Prod.fst) s ∧ g.cycles = s.cycles :=
  ⟨_, searches_foldl .nil (List.nil_subset _) (Nat.le_refl _) _ _, rfl⟩

namespace Searches

theorem visited_subset (h : Searches g path s files s') : s.visited ⊆ s'.visited := by
  induction h with
  | finish => exact List.Subset.refl _
  | close _ _ ih => rwa [visited_report] at ih
  | pass _ _ _ ih => exact ih
  | enter _ _ _ _ ihinto ihrest =>
    exact fun a ha => ihrest (ihinto (List.mem_cons_of_mem _ ha))

theorem seen_subset (h : Searches g path s files s') : s.seen ⊆ s'.seen := by
  induction h with
  | finish => exact List.Subset.refl _
  | close _ _ ih => exact fun m hm => ih (seen_subset_report _ _ _ hm)
  | pass _ _ _ ih => exact ih
  | enter _ _ _ _ ihinto ihrest => exact fun m hm => ihrest (ihinto hm)

end Searches

/-- Where a search stands that has come to the end of `path` and gone through the choices in `past`,
with those in `ahead` to come. -/
structure Standing (g : ImportGraph) (path past ahead visited : List String) : Prop where
  choices : g.choices path = past ++ ahead
  trail : g.FirstTrail path
  entered : path ⊆ visited
  through : past ⊆ visited
  /-- What is entered and no longer on the path is done with. -/
  done : ∀ a ∈ visited, a ∉ path → g.importsOf a ⊆ visited
  /-- No trail to a file that is still to be entered comes before the place where the search
  stands. -/
  first : ∀ t, g.IsTrail t → ∀ v ∈ t.getLast?, v ∉ visited →
    ¬ g.Precedes t path ∧ ∀ a ∈ past, ¬ path ++ [a] <+: t

namespace Standing

theorem start (g : ImportGraph) : Standing g [] [] (g.map Prod.fst) [] where
  choices := choices_nil g
  trail := ⟨isTrail_nil g, fun _ _ _ => not_precedes_nil⟩
  entered := List.nil_subset _
  through := List.nil_subset _
  done := fun _ ha => absurd ha List.not_mem_nil
  first := fun _ _ _ _ _ => ⟨not_precedes_nil, fun _ ha => absurd ha List.not_mem_nil⟩

/-- The search goes on to the next choice. Whatever it has done for the last one, no trail that goes
on with that one may lead to a file that is still to be entered. -/
theorem advance (h : Standing g path past (file :: ahead) visited) (hgrown : visited ⊆ visited')
    (hfile : file ∈ visited') (hdone : ∀ a ∈ visited', a ∉ path → g.importsOf a ⊆ visited')
    (hoff : ∀ t, g.IsTrail t → ∀ v ∈ t.getLast?, v ∉ visited' → ¬ path ++ [file] <+: t) :
    Standing g path (past ++ [file]) ahead visited' where
  choices := by rw [h.choices, List.append_assoc, List.singleton_append]
  trail := h.trail
  entered := fun a ha => hgrown (h.entered ha)
  through := List.append_subset.2
    ⟨fun a ha => hgrown (h.through ha), List.cons_subset.2 ⟨hfile, List.nil_subset _⟩⟩
  done := hdone
  first := by
    intro t ht v hv hnew
    obtain ⟨hbefore, hpast⟩ := h.first t ht v hv fun hm => hnew (hgrown hm)
    refine ⟨hbefore, fun a ha => ?_⟩
    rcases List.mem_append.1 ha with ha | ha
    · exact hpast a ha
    · rw [List.mem_singleton.1 ha]
      exact hoff t ht v hv hnew

theorem next_mem_choices (h : Standing g path past (file :: ahead) visited) :
    file ∈ g.choices path :=
  h.choices ▸ List.mem_append_right _ List.mem_cons_self

/-- No trail comes back to the path. -/
theorem close {members : List String} {closing : String}
    (h : Standing g path past (file :: ahead) s.visited) (hpath : file ∈ path) :
    Standing g path (past ++ [file]) ahead (s.report members closing).visited := by
  rw [visited_report]
  refine h.advance (List.Subset.refl _) (h.entered hpath) h.done fun t ht v _ _ hprefix => ?_
  exact (isTrail_concat.1 (ht.of_prefix hprefix)).2.2 hpath

/-- Imports lead from files that are done with to files that are entered, as long as they keep off
the path. -/
private theorem mem_visited_of_chain {rest : List String}
    (hdone : ∀ a ∈ visited, a ∉ path → g.importsOf a ⊆ visited)
    (hchain : (file :: rest).IsChain g.Imports) (hoff : ∀ a ∈ file :: rest, a ∉ path)
    (hfile : file ∈ visited) : ∀ a ∈ file :: rest, a ∈ visited := by
  induction rest generalizing file with
  | nil => exact List.forall_mem_singleton.2 hfile
  | cons next rest ih =>
    obtain ⟨hnext, hrest⟩ := List.isChain_cons_cons.1 hchain
    obtain ⟨hfileOff, hrestOff⟩ := List.forall_mem_cons.1 hoff
    exact List.forall_mem_cons.2 ⟨hfile, ih hrest hrestOff (hdone file hfile hfileOff hnext)⟩

/-- A trail that goes on with a file that is done with leads to files that are entered. -/
theorem pass (h : Standing g path past (file :: ahead) visited) (hvisited : file ∈ visited) :
    Standing g path (past ++ [file]) ahead visited := by
  refine h.advance (List.Subset.refl _) hvisited h.done fun t ht v hv hnew hprefix => ?_
  obtain ⟨rest, rfl⟩ := hprefix
  rw [List.append_assoc, List.singleton_append] at ht hv
  have hchain := (List.isChain_append.1 ht.joined).2.1
  have hoff : ∀ a ∈ file :: rest, a ∉ path := fun a ha hm =>
    List.disjoint_of_nodup_append ht.distinct hm ha
  rw [List.getLast?_append_of_ne_nil _ (List.cons_ne_nil file rest)] at hv
  exact hnew (mem_visited_of_chain h.done hchain hoff hvisited v (List.mem_of_getLast? hv))

/-- No trail to a new file comes before the one on which the search goes on. -/
theorem not_precedes_next (h : Standing g path past (file :: ahead) visited)
    (hvisited : file ∉ visited)
    {t : List String} (ht : g.IsTrail t) (hv : v ∈ t.getLast?) (hnew : v ∉ visited) :
    ¬ g.Precedes t (path ++ [file]) := by
  intro hbefore
  obtain ⟨hearlier, hpast⟩ := h.first t ht v hv hnew
  rcases precedes_concat hbefore with hbefore | ⟨a, ha, hlt⟩
  · exact hearlier hbefore
  · -- a choice before `file` is one of those that the search has gone through
    refine hpast a ?_ ha
    by_contra hna
    rw [h.choices, List.idxOf_append_of_notMem hna,
      List.idxOf_append_of_notMem fun hm => hvisited (h.through hm), List.idxOf_cons_self] at hlt
    omega

/-- The search enters a new file on the first of all trails to it. -/
theorem enter (h : Standing g path past (file :: ahead) visited) (hpath : file ∉ path)
    (hvisited : file ∉ visited) :
    Standing g (path ++ [file]) [] (g.importsOf file) (file :: visited) where
  choices := choices_concat g path file
  trail := by
    refine ⟨isTrail_concat.2 ⟨h.trail.toIsTrail, h.next_mem_choices, hpath⟩, ?_⟩
    intro other hother hlast
    exact h.not_precedes_next hvisited hother (hlast.trans List.getLast?_concat) hvisited
  entered := by
    refine List.append_subset.2 ⟨fun a ha => List.mem_cons_of_mem _ (h.entered ha), ?_⟩
    exact List.cons_subset.2 ⟨List.mem_cons_self, List.nil_subset _⟩
  through := List.nil_subset _
  done := by
    intro a ha hoff
    rw [List.mem_append, List.mem_singleton, not_or] at hoff
    have ha := (List.mem_cons.1 ha).resolve_left hoff.2
    exact fun b hb => List.mem_cons_of_mem _ (h.done a ha hoff.1 hb)
  first := by
    intro t ht v hv hnew
    have hnew := fun hm => hnew (List.mem_cons_of_mem _ hm)
    exact ⟨h.not_precedes_next hvisited ht hv hnew, fun a ha => absurd ha List.not_mem_nil⟩

/-- Back from a file whose imports the search has gone through. -/
theorem leave (h : Standing g path past (file :: ahead) visited) (hgrown : visited ⊆ visited')
    (hinto : Standing g (path ++ [file]) (g.importsOf file) [] visited') :
    Standing g path (past ++ [file]) ahead visited' := by
  have hfile : file ∈ visited' := hinto.entered (List.mem_append_right _ List.mem_cons_self)
  refine h.advance hgrown hfile ?_ ?_
  · intro a ha hoff
    by_cases he : a = file
    · subst he
      exact hinto.through
    · refine hinto.done a ha fun hm => ?_
      rcases List.mem_append.1 hm with hm | hm
      · exact hoff hm
      · exact he (List.mem_singleton.1 hm)
  · rintro t ht v hv hnew ⟨rest, rfl⟩
    cases rest with
    | nil =>
      rw [List.append_nil, List.getLast?_concat] at hv
      exact hnew (Option.some.inj hv ▸ hfile)
    | cons next rest =>
      have hprefix : path ++ [file] ++ [next] <+: path ++ [file] ++ next :: rest :=
        ⟨rest, List.append_assoc _ _ _⟩
      have hnext := (isTrail_concat.1 (ht.of_prefix hprefix)).2.1
      rw [choices_concat] at hnext
      exact (hinto.first _ ht v hv hnew).2 next hnext hprefix

end Standing

namespace Searches

theorem standing (h : Searches g path s files s') (hs : Standing g path past files s.visited) :
    Standing g path (past ++ files) [] s'.visited := by
  induction h generalizing past with
  | finish => rwa [List.append_nil]
  | close hpath _ ih =>
    have hrest := ih (hs.close hpath)
    rwa [List.append_assoc] at hrest
  | pass _ hvisited _ ih =>
    have hrest := ih (hs.pass hvisited)
    rwa [List.append_assoc] at hrest
  | enter hpath hvisited hinto _ ihinto ihrest =>
    have hgrown := List.Subset.trans (List.subset_cons_self _ _) hinto.visited_subset
    have hrest := ihrest (hs.leave hgrown (ihinto (hs.enter hpath hvisited)))
    rwa [List.append_assoc] at hrest

end Searches

/-- The search has gone into a file and come back. -/
theorem Standing.back (hs : Standing g path past (file :: ahead) s.visited) (hpath : file ∉ path)
    (hvisited : file ∉ s.visited)
    (hinto : Searches g (path ++ [file]) (s.enter file) (g.importsOf file) mid) :
    Standing g path (past ++ [file]) ahead mid.visited :=
  hs.leave (List.Subset.trans (List.subset_cons_self _ _) hinto.visited_subset)
    (hinto.standing (hs.enter hpath hvisited))

end CycleSearch

end ImportGraph

end ContractAtlas
