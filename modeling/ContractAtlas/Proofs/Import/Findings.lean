import ContractAtlas.Proofs.Import.Search

/-! What a search for cycles has reported. It reports rings only, no two of them rotations of each
other, and each is the end of the first trail to its last file; and it leaves out nothing that leads
from a file back to the first trail to that file, so that it finds a ring wherever imports run in
circles. -/
namespace ContractAtlas

namespace ImportGraph

namespace CycleSearch
variable {g : ImportGraph} {path past ahead files members : List String} {s s' mid : CycleSearch}
  {file v : String}

/-- The canonical forms that a search has seen are those of the cycles that it has listed, each of
them once. -/
structure Recorded (s : CycleSearch) : Prop where
  seen : s.seen = (s.cycles.map fun c => canonical c.dropLast).reverse
  distinct : s.seen.Nodup

theorem recorded_empty : Recorded {} := ⟨rfl, .nil⟩

theorem Recorded.report (h : Recorded s) (members : List String) (closing : String) :
    Recorded (s.report members closing) := by
  rw [CycleSearch.report]
  split
  · exact h
  · rename_i hnew
    refine ⟨?_, List.nodup_cons.2 ⟨fun hm => hnew (List.contains_iff_mem.2 hm), h.distinct⟩⟩
    simp [h.seen]

theorem Recorded.enter (h : Recorded s) (file : String) : Recorded (s.enter file) :=
  ⟨h.seen, h.distinct⟩

theorem Recorded.mem_seen_iff (h : Recorded s) :
    members ∈ s.seen ↔ ∃ c ∈ s.cycles, canonical c.dropLast = members := by
  rw [h.seen, List.mem_reverse, List.mem_map]

theorem mem_seen_report (s : CycleSearch) (members : List String) (closing : String) :
    canonical members ∈ (s.report members closing).seen := by
  rw [report]
  split
  · rename_i hseen
    exact List.contains_iff_mem.1 hseen
  · exact List.mem_cons_self

theorem mem_cycles_report {closing : String} {c : List String}
    (h : c ∈ (s.report members closing).cycles) : c ∈ s.cycles ∨ c = members ++ [closing] := by
  rw [report] at h
  split at h
  · exact .inl h
  · rw [List.mem_append, List.mem_singleton] at h
    exact h

theorem Searches.recorded (h : Searches g path s files s') (hs : Recorded s) : Recorded s' := by
  induction h with
  | finish => exact hs
  | close _ _ ih => exact ih (hs.report _ _)
  | pass _ _ _ ih => exact ih hs
  | enter _ _ _ _ ihinto ihrest => exact ihrest (ihinto (hs.enter _))

/-- A trail that can go on to one of its own files ends with a ring. -/
theorem isRing_of_isTrail {front back : List String} (h : g.IsTrail (front ++ file :: back))
    (hfile : file ∈ g.choices (front ++ file :: back)) : g.IsRing (file :: back) := by
  have hne : file :: back ≠ [] := List.cons_ne_nil file back
  refine ⟨hne, h.distinct.sublist (List.sublist_append_right _ _), ?_⟩
  refine List.isChain_append.2 ⟨(List.isChain_append.1 h.joined).2.1, .singleton file, ?_⟩
  intro last hlast closing hclosing
  cases hclosing
  rwa [choices, List.getLast?_append_of_ne_nil _ hne, Option.mem_def.1 hlast] at hfile

/-- Each cycle that is listed ends the first trail to its last file. -/
theorem Searches.found (h : Searches g path s files s') (hs : Standing g path past files s.visited)
    {c : List String} (hc : c ∈ s'.cycles) :
    c ∈ s.cycles ∨
      ∃ front ring, g.FirstTrail (front ++ ring) ∧ g.IsRing ring ∧ c = closed ring := by
  induction h generalizing past with
  | finish => exact .inl hc
  | @close path files s s' file hpath _ ih =>
    rcases ih (hs.close hpath) hc with hc | hc
    · refine (mem_cycles_report hc).imp_right fun hc => ?_
      obtain ⟨front, back, he, hdrop⟩ := dropWhile_of_mem hpath
      have htrail := hs.trail
      have hchoice := hs.next_mem_choices
      rw [he] at htrail hchoice
      refine ⟨front, file :: back, htrail, isRing_of_isTrail htrail.toIsTrail hchoice, ?_⟩
      rw [hc, hdrop]
      rfl
    · exact .inr hc
  | pass _ hvisited _ ih => exact ih (hs.pass hvisited) hc
  | enter hpath hvisited hinto _ ihinto ihrest =>
    rcases ihrest (hs.back hpath hvisited hinto) hc with hc | hc
    · exact ihinto (hs.enter hpath hvisited) hc
    · exact .inr hc

/-- The way on which a search has come to `v`: the first trail to it, and what leads from `v` back
to the trail is reported. -/
structure Way (g : ImportGraph) (s : CycleSearch) (trail : List String) (v : String) : Prop
    extends FirstTrail g trail where
  last : trail.getLast? = some v
  reported : ∀ front w rest, trail = front ++ w :: rest → g.Imports v w →
    canonical (w :: rest) ∈ s.seen

theorem Way.mono {trail : List String} (h : Way g s trail v) (hseen : s.seen ⊆ s'.seen) :
    Way g s' trail v :=
  ⟨h.toFirstTrail, h.last, fun front w rest he hw => hseen (h.reported front w rest he hw)⟩

theorem Searches.closes (h : Searches g path s files s') (hfile : file ∈ files)
    (hpath : file ∈ path) :
    canonical (path.dropWhile (· != file)) ∈ s'.seen := by
  induction h with
  | finish => exact absurd hfile List.not_mem_nil
  | close _ hrest ih =>
    rcases List.mem_cons.1 hfile with rfl | hfile
    · exact hrest.seen_subset (mem_seen_report _ _ _)
    · exact ih hfile hpath
  | pass hoff _ _ ih =>
    rcases List.mem_cons.1 hfile with rfl | hfile
    · exact absurd hpath hoff
    · exact ih hfile hpath
  | enter hoff _ _ _ _ ihrest =>
    rcases List.mem_cons.1 hfile with rfl | hfile
    · exact absurd hpath hoff
    · exact ihrest hfile hpath

/-- Into a new file the ways are that to the file itself and those to what lies behind it. -/
theorem Standing.ways_into (hs : Standing g path past (file :: ahead) s.visited)
    (hpath : file ∉ path) (hvisited : file ∉ s.visited)
    (hinto : Searches g (path ++ [file]) (s.enter file) (g.importsOf file) mid)
    (hways : ∀ v ∈ mid.visited, v ∉ (s.enter file).visited →
      ∃ next ∈ g.importsOf file, ∃ back, Way g mid (path ++ [file] ++ next :: back) v)
    (hv : v ∈ mid.visited) (hnew : v ∉ s.visited) : ∃ back, Way g mid (path ++ file :: back) v := by
  by_cases hself : v = file
  · subst hself
    have htrail := (hs.enter hpath hvisited).trail
    refine ⟨[], htrail, List.getLast?_concat, fun front w rest he hw => ?_⟩
    have hw' : w ∈ path ++ [v] := he ▸ List.mem_append_right _ List.mem_cons_self
    have hreported := hinto.closes hw hw'
    have hfront : w ∉ front := fun hm =>
      List.disjoint_of_nodup_append (he ▸ htrail.distinct) hm List.mem_cons_self
    rwa [he, dropWhile_append_cons hfront] at hreported
  · obtain ⟨next, -, back, hway⟩ :=
      hways v hv fun hm => hnew ((List.mem_cons.1 hm).resolve_left hself)
    rw [List.append_assoc] at hway
    exact ⟨next :: back, hway⟩

/-- To every file that a run enters there is a way, through one of the files from which the run
starts. -/
theorem Searches.ways (h : Searches g path s files s') (hs : Standing g path past files s.visited)
    (hv : v ∈ s'.visited) (hnew : v ∉ s.visited) :
    ∃ file ∈ files, ∃ back, Way g s' (path ++ file :: back) v := by
  induction h generalizing past v with
  | finish => exact absurd hv hnew
  | close hpath _ ih =>
    obtain ⟨file, hfile, hback⟩ := ih (hs.close hpath) hv (by rwa [visited_report])
    exact ⟨file, List.mem_cons_of_mem _ hfile, hback⟩
  | pass _ hvisited _ ih =>
    obtain ⟨file, hfile, hback⟩ := ih (hs.pass hvisited) hv hnew
    exact ⟨file, List.mem_cons_of_mem _ hfile, hback⟩
  | @enter path files s mid s' file hpath hvisited hinto hrest ihinto ihrest =>
    by_cases hmid : v ∈ mid.visited
    · obtain ⟨back, hway⟩ := hs.ways_into hpath hvisited hinto
        (fun v hv hnew => ihinto (hs.enter hpath hvisited) hv hnew) hmid hnew
      exact ⟨file, List.mem_cons_self, back, hway.mono hrest.seen_subset⟩
    · obtain ⟨file, hfile, hback⟩ := ihrest (hs.back hpath hvisited hinto) hv hmid
      exact ⟨file, List.mem_cons_of_mem _ hfile, hback⟩

/-- When a search comes back from a file, it has entered all that is linked with it, unless the path
went through some of that before. -/
theorem Standing.mem_visited_of_linked {visited : List String}
    (hs : Standing g (path ++ [file]) (g.importsOf file) [] visited)
    (hoff : ∀ a, g.Linked file a → a ∉ path) (h : g.Linked file v) : v ∈ visited := by
  obtain ⟨hto, hback⟩ := h
  induction hto with
  | refl => exact hs.entered (List.mem_append_right _ List.mem_cons_self)
  | @tail b c hto hstep ih =>
    have hb : Relation.ReflTransGen g.Imports b file := .head hstep hback
    by_cases hself : b = file
    · exact hs.through (hself ▸ hstep)
    · refine hs.done b (ih hb) (fun hm => ?_) hstep
      rcases List.mem_append.1 hm with hm | hm
      · exact hoff b ⟨hto, hb⟩ hm
      · exact hself (List.mem_singleton.1 hm)

/-- From the first file that a search enters of those linked with each other, it comes to one that
imports the file, and reports the ring. -/
theorem Standing.exists_ring_into (hs : Standing g path past (file :: ahead) s.visited)
    (hpath : file ∉ path) (hvisited : file ∉ s.visited)
    (hinto : Searches g (path ++ [file]) (s.enter file) (g.importsOf file) mid)
    (hfile : Relation.TransGen g.Imports file file)
    (hnew : ∀ a, g.Linked file a → a ∉ s.visited) :
    ∃ ring, g.IsRing ring ∧ (∀ a ∈ ring, g.Linked file a) ∧ canonical ring ∈ mid.seen := by
  obtain ⟨last, hto, hstep⟩ := Relation.TransGen.tail'_iff.1 hfile
  have hlast : g.Linked file last := ⟨hto, .single hstep⟩
  have hback := hinto.standing (hs.enter hpath hvisited)
  have hmet := hback.mem_visited_of_linked (fun a ha hm => hnew a ha (hs.entered hm)) hlast
  obtain ⟨back, hway⟩ := hs.ways_into hpath hvisited hinto
    (fun v hv hv' => hinto.ways (hs.enter hpath hvisited) hv hv') hmet (hnew last hlast)
  have hring : g.IsRing (file :: back) := by
    apply isRing_of_isTrail hway.toIsTrail
    rwa [ImportGraph.choices, hway.last]
  exact ⟨file :: back, hring, fun a ha => hring.linked List.mem_cons_self ha,
    hway.reported path file back rfl hstep⟩

/-- A run that comes to the files linked with `root` reports a ring of them: the one that closes
with the first of these files that it enters. -/
theorem Searches.exists_ring {root : String} (h : Searches g path s files s')
    (hs : Standing g path past files s.visited) (hroot : Relation.TransGen g.Imports root root)
    (hnew : ∀ a, g.Linked root a → a ∉ s.visited) (hmet : ∃ a ∈ s'.visited, g.Linked root a) :
    ∃ ring, g.IsRing ring ∧ (∀ a ∈ ring, g.Linked root a) ∧ canonical ring ∈ s'.seen := by
  induction h generalizing past with
  | finish =>
    obtain ⟨a, ha, hlinked⟩ := hmet
    exact absurd ha (hnew a hlinked)
  | close hpath _ ih =>
    exact ih (hs.close hpath) (by rwa [visited_report]) hmet
  | pass _ hvisited _ ih => exact ih (hs.pass hvisited) hnew hmet
  | @enter path files s mid s' file hpath hvisited hinto hrest ihinto ihrest =>
    by_cases hfile : g.Linked root file
    · have hself := (Relation.TransGen.trans_right hfile.2 hroot).trans_left hfile.1
      obtain ⟨ring, hring, hlinked, hseen⟩ := hs.exists_ring_into hpath hvisited hinto hself
        fun a ha => hnew a (hfile.trans ha)
      exact ⟨ring, hring, fun a ha => hfile.trans (hlinked a ha), hrest.seen_subset hseen⟩
    · -- the files linked with `root` come behind `file`, or not before one of `files`
      by_cases hmid : ∃ a ∈ mid.visited, g.Linked root a
      · have hstill : ∀ a, g.Linked root a → a ∉ (s.enter file).visited := by
          intro a ha hm
          rcases List.mem_cons.1 hm with rfl | hm
          · exact hfile ha
          · exact hnew a ha hm
        obtain ⟨ring, hring, hlinked, hseen⟩ := ihinto (hs.enter hpath hvisited) hstill hmid
        exact ⟨ring, hring, hlinked, hrest.seen_subset hseen⟩
      · exact ihrest (hs.back hpath hvisited hinto) (fun a ha hm => hmid ⟨a, hm, ha⟩) hmet

end CycleSearch

end ImportGraph

end ContractAtlas
