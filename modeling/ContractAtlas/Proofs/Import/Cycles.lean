import ContractAtlas.Proofs.Import.Findings

/-! The listed cycles of imports. They are rings, each listed at most once, and there is one
wherever imports run in circles. Rings that share files are not all listed: a ring is listed exactly
when it ends the first trail to one of its files. -/
namespace ContractAtlas

namespace ImportGraph
variable {g : ImportGraph} {ring : List String}

/-- Each listed cycle is a ring, and ends the first trail to its last file. -/
theorem exists_ring_of_mem_cycles {c : List String} (hc : c ∈ g.cycles) :
    ∃ front ring, g.FirstTrail (front ++ ring) ∧ g.IsRing ring ∧ c = closed ring := by
  obtain ⟨s, hrun, hcycles⟩ := CycleSearch.exists_searches g
  exact (hrun.found (.start g) (hcycles ▸ hc)).resolve_left List.not_mem_nil

theorem nodup_canonical_cycles (g : ImportGraph) :
    (g.cycles.map fun c => canonical c.dropLast).Nodup := by
  obtain ⟨s, hrun, hcycles⟩ := CycleSearch.exists_searches g
  have hs := hrun.recorded CycleSearch.recorded_empty
  have hdistinct := hs.distinct
  rwa [hs.seen, List.nodup_reverse, ← hcycles] at hdistinct

/-- No two listed cycles are rotations of each other. -/
theorem pairwise_cycles (g : ImportGraph) :
    g.cycles.Pairwise fun c d => ¬ c.dropLast ~r d.dropLast := by
  refine (List.pairwise_map.1 g.nodup_canonical_cycles).imp_of_mem fun hc _ hne hturned => hne ?_
  obtain ⟨-, ring, -, hring, rfl⟩ := exists_ring_of_mem_cycles hc
  have hdistinct := hring.distinct
  rw [← dropLast_closed hring.nonempty] at hdistinct
  exact (canonical_eq_iff hdistinct).2 hturned

/-- A search that has seen the canonical form of a ring has listed a rotation of the ring. -/
private theorem exists_listed {s : CycleSearch} (hs : s.Recorded) (hcycles : g.cycles = s.cycles)
    (hseen : canonical ring ∈ s.seen) :
    ∃ r, r ~r ring ∧ closed r ∈ g.cycles := by
  obtain ⟨c, hc, hsame⟩ := hs.mem_seen_iff.1 hseen
  rw [← hcycles] at hc
  obtain ⟨-, r, -, hr, rfl⟩ := exists_ring_of_mem_cycles hc
  rw [dropLast_closed hr.nonempty] at hsame
  exact ⟨r, (canonical_eq_iff hr.distinct).1 hsame, hc⟩

/-- Where imports lead from a file back to it, a ring of files linked with it is listed. -/
theorem exists_mem_cycles_of_transGen {file : String} (h : Relation.TransGen g.Imports file file) :
    ∃ r, g.IsRing r ∧ (∀ a ∈ r, g.Linked file a) ∧ closed r ∈ g.cycles := by
  obtain ⟨s, hrun, hcycles⟩ := CycleSearch.exists_searches g
  obtain ⟨next, hnext, -⟩ := Relation.TransGen.head'_iff.1 h
  have hfile : file ∈ s.visited :=
    (hrun.standing (.start g)).through (mem_keys_of_imports hnext)
  obtain ⟨ring, hring, hlinked, hseen⟩ := hrun.exists_ring (.start g) h
    (fun _ _ => List.not_mem_nil) ⟨file, hfile, .refl g file⟩
  obtain ⟨r, hturned, hlisted⟩ :=
    exists_listed (hrun.recorded CycleSearch.recorded_empty) hcycles hseen
  exact ⟨r, hring.rotated hturned.symm, fun a ha => hlinked a (hturned.mem_iff.1 ha), hlisted⟩

theorem cycles_eq_nil_iff :
    g.cycles = [] ↔ ∀ file, ¬ Relation.TransGen g.Imports file file := by
  constructor
  · intro hnil file h
    obtain ⟨r, -, -, hlisted⟩ := exists_mem_cycles_of_transGen h
    rw [hnil] at hlisted
    exact List.not_mem_nil hlisted
  · intro hacyclic
    refine List.eq_nil_iff_forall_not_mem.2 fun c hc => ?_
    obtain ⟨-, ring, -, hring, -⟩ := exists_ring_of_mem_cycles hc
    obtain ⟨first, rest, rfl⟩ := List.exists_cons_of_ne_nil hring.nonempty
    exact hacyclic first hring.transGen

/-- How often a ring is listed, from whichever file. -/
def timesListed (g : ImportGraph) (ring : List String) : Nat :=
  g.cycles.countP fun c => (ring.cyclicPermutations.map closed).contains c

private theorem contains_listing_iff {c : List String} :
    (ring.cyclicPermutations.map closed).contains c = true ↔ ∃ r, r ~r ring ∧ closed r = c := by
  simp only [List.contains_iff_mem, List.mem_map, List.mem_cyclicPermutations_iff]

theorem timesListed_le_one (h : g.IsRing ring) : g.timesListed ring ≤ 1 := by
  calc g.timesListed ring
      ≤ g.cycles.countP ((· == canonical ring) ∘ fun c => canonical c.dropLast) := by
        refine List.countP_mono_left fun c _ hc => ?_
        obtain ⟨r, hturned, rfl⟩ := contains_listing_iff.1 hc
        have hr := h.rotated hturned.symm
        rw [Function.comp_apply, dropLast_closed hr.nonempty, beq_iff_eq]
        exact (canonical_eq_iff hr.distinct).2 hturned
    _ = (g.cycles.map fun c => canonical c.dropLast).count (canonical ring) := List.countP_map.symm
    _ ≤ 1 := List.nodup_iff_count_le_one.1 g.nodup_canonical_cycles _

theorem timesListed_eq_one_iff (h : g.IsRing ring) :
    g.timesListed ring = 1 ↔ ∃ r, r ~r ring ∧ closed r ∈ g.cycles := by
  have hmost := timesListed_le_one h
  have hsome : 0 < g.timesListed ring ↔ ∃ r, r ~r ring ∧ closed r ∈ g.cycles := by
    simp only [timesListed, List.countP_pos_iff, contains_listing_iff]
    constructor
    · rintro ⟨_, hc, r, hturned, rfl⟩
      exact ⟨r, hturned, hc⟩
    · rintro ⟨r, hturned, hc⟩
      exact ⟨_, hc, r, hturned, rfl⟩
  rw [← hsome]
  omega

/-- A ring that ends the first trail to its last file is listed: the search comes to that file on
that trail, and goes on to the first file of the ring. -/
theorem exists_listed_of_firstTrail {front : List String} (hring : g.IsRing ring)
    (htrail : g.FirstTrail (front ++ ring)) : ∃ r, r ~r ring ∧ closed r ∈ g.cycles := by
  obtain ⟨s, hrun, hcycles⟩ := CycleSearch.exists_searches g
  have hend := hrun.standing (.start g)
  obtain ⟨last, hlast⟩ : ∃ last, ring.getLast? = some last :=
    Option.isSome_iff_exists.1 (List.getLast?_isSome.2 hring.nonempty)
  have hlast' : (front ++ ring).getLast? = some last := by
    rw [List.getLast?_append_of_ne_nil _ hring.nonempty, hlast]
  have hvisited : last ∈ s.visited := by
    refine htrail.joined.induction (· ∈ s.visited) _ ?_ ?_ last (List.mem_of_getLast? hlast')
    · exact fun x y hstep hx => hend.done x hx List.not_mem_nil hstep
    · exact fun hne => hend.through (htrail.start _ (List.head?_eq_some_head hne))
  obtain ⟨root, -, back, hway⟩ := hrun.ways (.start g) hvisited List.not_mem_nil
  have hsame := hway.toFirstTrail.unique htrail (hway.last.trans hlast'.symm)
  obtain ⟨first, rest, rfl⟩ := List.exists_cons_of_ne_nil hring.nonempty
  have hcloses : g.Imports last first :=
    (List.isChain_append.1 hring.joined).2.2 last hlast first rfl
  exact exists_listed (hrun.recorded CycleSearch.recorded_empty) hcycles
    (hway.reported front first rest hsame hcloses)

end ImportGraph

namespace Program

/-- Whatever the program imports: each listed cycle is a ring listed from its first file back to
that file, no two are rotations of each other, and for each file from which imports lead back to it,
a cycle is listed of files to which imports lead from it and from which they lead back. So no cycle
is listed exactly when imports never lead back to a file. -/
theorem cycles_sound_complete (p : Program) :
    (∀ c ∈ p.importGraph.cycles, ∃ ring, p.importGraph.IsRing ring ∧ c = ImportGraph.closed ring) ∧
    (p.importGraph.cycles.Pairwise fun c d => ¬ c.dropLast ~r d.dropLast) ∧
    (∀ file, Relation.TransGen p.importGraph.Imports file file →
      ∃ c ∈ p.importGraph.cycles, ∀ a ∈ c, p.importGraph.Linked file a) ∧
    (p.importGraph.cycles = [] ↔ ∀ file, ¬ Relation.TransGen p.importGraph.Imports file file) := by
  refine ⟨fun c hc => ?_, p.importGraph.pairwise_cycles, fun file h => ?_,
    ImportGraph.cycles_eq_nil_iff⟩
  · obtain ⟨-, ring, -, hring, rfl⟩ := ImportGraph.exists_ring_of_mem_cycles hc
    exact ⟨ring, hring, rfl⟩
  · obtain ⟨r, -, hlinked, hlisted⟩ := ImportGraph.exists_mem_cycles_of_transGen h
    exact ⟨_, hlisted, fun a ha => hlinked a (ImportGraph.mem_closed.1 ha)⟩

/-- Whatever the program imports: a ring is listed once or not at all, from whichever file. It is
listed exactly when, of all trails to one of its files, the first one ends by going round the ring
to that file. So a ring is listed if there is no other ring among the files linked with it. -/
theorem ring_listed_iff (p : Program) {ring : List String} (h : p.importGraph.IsRing ring) :
    p.importGraph.timesListed ring ≤ 1 ∧
    (p.importGraph.timesListed ring = 1 ↔
      ∃ front r, r ~r ring ∧ p.importGraph.FirstTrail (front ++ r)) ∧
    ((∀ other, p.importGraph.IsRing other →
        (∀ a ∈ ring, ∀ b ∈ other, p.importGraph.Linked a b) → other ~r ring) →
      p.importGraph.timesListed ring = 1) := by
  refine ⟨ImportGraph.timesListed_le_one h, ?_, fun honly => ?_⟩
  · rw [ImportGraph.timesListed_eq_one_iff h]
    constructor
    · rintro ⟨r, hturned, hlisted⟩
      obtain ⟨front, ring', htrail, hring', hclosed⟩ :=
        ImportGraph.exists_ring_of_mem_cycles hlisted
      have hsame : r = ring' := by
        have hr := h.rotated hturned.symm
        rw [← ImportGraph.dropLast_closed hr.nonempty, hclosed,
          ImportGraph.dropLast_closed hring'.nonempty]
      exact ⟨front, r, hturned, hsame ▸ htrail⟩
    · rintro ⟨front, r, hturned, htrail⟩
      obtain ⟨r', hturned', hlisted⟩ :=
        ImportGraph.exists_listed_of_firstTrail (h.rotated hturned.symm) htrail
      exact ⟨r', hturned'.trans hturned, hlisted⟩
  · obtain ⟨first, rest, rfl⟩ := List.exists_cons_of_ne_nil h.nonempty
    obtain ⟨r, hr, hlinked, hlisted⟩ := ImportGraph.exists_mem_cycles_of_transGen h.transGen
    refine (ImportGraph.timesListed_eq_one_iff h).2 ⟨r, honly r hr fun a ha b hb => ?_, hlisted⟩
    exact (h.linked ha List.mem_cons_self).trans (hlinked b hb)

end Program

namespace Sample

/-- An import of this path, in the file of this number. -/
def importIn (file : Nat) (path : String) : Import := { path, span := { file } }

/-- Three files in a ring, of which the first one imports the last one too. -/
def shortcut : Program where
  files := [⟨0, "A.sol", []⟩, ⟨1, "B.sol", []⟩, ⟨2, "C.sol", []⟩]
  imports :=
    [importIn 0 "./B.sol", importIn 0 "./C.sol", importIn 1 "./C.sol", importIn 2 "./A.sol"]

end Sample

namespace Program

theorem ring_listed_iff_sample :
    Sample.shortcut.importGraph.IsRing ["C.sol", "A.sol", "B.sol"] ∧
      Sample.shortcut.importGraph.timesListed ["C.sol", "A.sol", "B.sol"] = 1 ∧
      ∃ front r, r ~r ["C.sol", "A.sol", "B.sol"] ∧
        Sample.shortcut.importGraph.FirstTrail (front ++ r) := by
  have hring : Sample.shortcut.importGraph.IsRing ["C.sol", "A.sol", "B.sol"] :=
    ⟨by decide, by decide, by decide +kernel⟩
  have honce : Sample.shortcut.importGraph.timesListed ["C.sol", "A.sol", "B.sol"] = 1 := by
    decide +kernel
  exact ⟨hring, honce, (ring_listed_iff Sample.shortcut hring).2.1.1 honce⟩

/-- The search comes to the last file by way of the second one, so the ring over the short cut is
not listed. -/
theorem ring_lost_behind_visited :
    Sample.shortcut.importGraph.IsRing ["A.sol", "C.sol"] ∧
      Sample.shortcut.importGraph.timesListed ["A.sol", "C.sol"] = 0 :=
  ⟨⟨by decide, by decide, by decide +kernel⟩, by decide +kernel⟩

end Program

end ContractAtlas
