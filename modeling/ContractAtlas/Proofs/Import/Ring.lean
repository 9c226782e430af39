import ContractAtlas.Import.Graph
import Mathlib.Data.List.Cycle
import Mathlib.Logic.Relation

/-! Rings of imports: files that each import the next one, the last one the first. A ring has as
many listings as files, one for each file that may come first; the canonical form is the one whose
smallest file comes first. -/
namespace ContractAtlas

namespace ImportGraph

/-- `a` imports `b`. -/
def Imports (g : ImportGraph) (a b : String) : Prop := b ∈ g.importsOf a

instance (g : ImportGraph) (a b : String) : Decidable (g.Imports a b) :=
  inferInstanceAs (Decidable (b ∈ g.importsOf a))

/-- Only loaded files have imports. -/
theorem mem_keys_of_imports {g : ImportGraph} {a b : String} (h : g.Imports a b) :
    a ∈ g.map Prod.fst := by
  by_contra hkey
  have hnone : g.lookup a = none := by
    refine List.lookup_eq_none_iff.2 fun entry hentry => bne_iff_ne.2 fun he => hkey ?_
    exact List.mem_map.2 ⟨entry, hentry, he.symm⟩
  rw [Imports, importsOf, hnone] at h
  exact List.not_mem_nil h

/-- Imports lead from `a` to `b` and back. -/
def Linked (g : ImportGraph) (a b : String) : Prop :=
  Relation.ReflTransGen g.Imports a b ∧ Relation.ReflTransGen g.Imports b a

theorem Linked.refl (g : ImportGraph) (a : String) : g.Linked a a := ⟨.refl, .refl⟩

theorem Linked.symm {g : ImportGraph} {a b : String} (h : g.Linked a b) : g.Linked b a :=
  ⟨h.2, h.1⟩

theorem Linked.trans {g : ImportGraph} {a b c : String} (h : g.Linked a b) (h' : g.Linked b c) :
    g.Linked a c :=
  ⟨h.1.trans h'.1, h'.2.trans h.2⟩

/-- A ring listed from its first file back to that file. -/
def closed (ring : List String) : List String := ring ++ ring.head?.toList

/-- Distinct files that each import the next one, the last one the first. -/
structure IsRing (g : ImportGraph) (ring : List String) : Prop where
  nonempty : ring ≠ []
  distinct : ring.Nodup
  joined : (closed ring).IsChain g.Imports

section Listing
variable {g : ImportGraph} {ring ring' : List String}

theorem closed_cons (a : String) (rest : List String) :
    closed (a :: rest) = a :: (rest ++ [a]) := rfl

theorem dropLast_closed (h : ring ≠ []) : (closed ring).dropLast = ring := by
  obtain ⟨a, rest, rfl⟩ := List.exists_cons_of_ne_nil h
  exact List.dropLast_concat

theorem mem_closed {a : String} : a ∈ closed ring ↔ a ∈ ring := by
  cases ring with
  | nil => exact Iff.rfl
  | cons b rest =>
    rw [closed_cons]
    grind

/-- Whichever file a ring starts from, it is a ring. -/
theorem IsRing.rotated (h : g.IsRing ring) (hr : ring ~r ring') : g.IsRing ring' := by
  have hchain (l : List String) (hl : l ≠ []) :
      (closed l).IsChain g.Imports ↔ Cycle.Chain g.Imports (l : Cycle String) := by
    obtain ⟨a, rest, rfl⟩ := List.exists_cons_of_ne_nil hl
    exact (Cycle.chain_coe_cons g.Imports a rest).symm
  have hne : ring' ≠ [] := fun he => h.nonempty (List.isRotated_nil_iff.1 (he ▸ hr))
  refine ⟨hne, hr.nodup_iff.1 h.distinct, ?_⟩
  rw [hchain ring' hne, ← Cycle.coe_eq_coe.2 hr, ← hchain ring h.nonempty]
  exact h.joined

/-- Imports lead from each file of a ring to each of it. -/
theorem IsRing.linked (h : g.IsRing ring) {a b : String} (ha : a ∈ ring) (hb : b ∈ ring) :
    g.Linked a b := by
  obtain ⟨first, rest, rfl⟩ := List.exists_cons_of_ne_nil h.nonempty
  have hfirst : ∀ x ∈ closed (first :: rest), g.Linked first x := by
    intro x hx
    constructor
    · exact h.joined.induction (Relation.ReflTransGen g.Imports first) _
        (fun _ _ hstep hto => hto.tail hstep) (fun _ => .refl) x hx
    · refine h.joined.backwards_induction (Relation.ReflTransGen g.Imports · first) _
        (fun _ _ hstep hto => hto.head hstep) (fun _ => ?_) x hx
      exact List.getLast_concat (l := first :: rest) ▸ .refl
  exact (hfirst a (mem_closed.2 ha)).symm.trans (hfirst b (mem_closed.2 hb))

/-- Imports lead from a file of a ring back to it. -/
theorem IsRing.transGen {first : String} {rest : List String} (h : g.IsRing (first :: rest)) :
    Relation.TransGen g.Imports first first := by
  have hne : rest ++ [first] ≠ [] := List.concat_ne_nil first rest
  obtain ⟨next, others, he⟩ := List.exists_cons_of_ne_nil hne
  have hjoined := h.joined
  rw [closed_cons, he] at hjoined
  have hnext : next ∈ first :: rest := by
    apply mem_closed.1
    rw [closed_cons, he]
    exact List.mem_cons_of_mem _ List.mem_cons_self
  exact .head' (List.isChain_cons_cons.1 hjoined).1 (h.linked hnext List.mem_cons_self).1

end Listing

section Canonical
variable {members members' : List String} {m x : String}

theorem dropWhile_append_cons {front back : List String} (h : m ∉ front) :
    (front ++ m :: back).dropWhile (· != m) = m :: back := by
  have hne : ∀ a ∈ front, (a != m) = true := fun a ha => bne_iff_ne.2 fun he => h (he ▸ ha)
  rw [List.dropWhile_append_of_pos hne]
  simp

/-- What is left of a list from the first place of a member on. -/
theorem dropWhile_of_mem (h : m ∈ members) :
    ∃ front back, members = front ++ m :: back ∧ members.dropWhile (· != m) = m :: back := by
  obtain ⟨front, back, rfl, hfront⟩ := List.eq_append_cons_of_mem h
  exact ⟨front, back, rfl, dropWhile_append_cons hfront⟩

/-- With one file more, the smaller of the two is the smallest. -/
private theorem smallest?_concat (members : List String) (x : String) :
    smallest? (members ++ [x]) =
      some ((smallest? members).elim x fun least => if x < least then x else least) := by
  rw [smallest?, List.foldl_append, ← smallest?]
  cases smallest? members with
  | none => rfl
  | some least => exact (apply_ite some _ _ _).symm

theorem smallest?_spec (h : members ≠ []) :
    ∃ m, smallest? members = some m ∧ m ∈ members ∧ ∀ x ∈ members, m ≤ x := by
  induction members using List.reverseRecOn with
  | nil => exact absurd rfl h
  | append_singleton members x ih =>
    rw [smallest?_concat]
    by_cases hm : members = []
    · subst hm
      refine ⟨x, rfl, List.mem_singleton_self x, fun y hy => ?_⟩
      exact List.mem_singleton.1 hy ▸ String.le_refl x
    · obtain ⟨m, hsmallest, hmem, hleast⟩ := ih hm
      rw [hsmallest]
      by_cases hlt : x < m
      · refine ⟨x, congrArg some (if_pos hlt), by simp, fun y hy => ?_⟩
        rcases List.mem_append.1 hy with hy | hy
        · exact String.le_trans (String.not_lt.1 (String.lt_asymm hlt)) (hleast y hy)
        · exact List.mem_singleton.1 hy ▸ String.le_refl x
      · refine ⟨m, congrArg some (if_neg hlt), List.mem_append_left _ hmem, fun y hy => ?_⟩
        rcases List.mem_append.1 hy with hy | hy
        · exact hleast y hy
        · exact List.mem_singleton.1 hy ▸ String.not_lt.1 hlt

theorem smallest?_perm (h : members.Perm members') : smallest? members = smallest? members' := by
  by_cases hm : members = []
  · subst hm
    rw [h.nil_eq]
  · have hm' : members' ≠ [] := fun he => hm (he ▸ h).eq_nil
    obtain ⟨m, hsmallest, hmem, hleast⟩ := smallest?_spec hm
    obtain ⟨m', hsmallest', hmem', hleast'⟩ := smallest?_spec hm'
    rw [hsmallest, hsmallest']
    congr 1
    exact String.le_antisymm (hleast m' (h.mem_iff.2 hmem')) (hleast' m (h.mem_iff.1 hmem))

theorem canonical_isRotated (members : List String) : canonical members ~r members := by
  have h : canonical members ~r (members.takeWhile (some · != smallest? members) ++
      members.dropWhile (some · != smallest? members)) := List.isRotated_append
  rwa [List.takeWhile_append_dropWhile] at h

/-- The canonical form starts with the smallest member. -/
theorem canonical_eq_cons (h : members ≠ []) :
    ∃ m rest, smallest? members = some m ∧ canonical members = m :: rest := by
  obtain ⟨m, hsmallest, hmem, -⟩ := smallest?_spec h
  obtain ⟨front, back, -, hdrop⟩ := dropWhile_of_mem hmem
  refine ⟨m, back ++ members.takeWhile (some · != smallest? members), hsmallest, ?_⟩
  have hsame : (fun a => some a != smallest? members) = fun a => a != m := by
    funext a
    rw [hsmallest]
    rfl
  rw [canonical, hsame, hdrop, List.cons_append]

/-- Of distinct files, rotations with the same first file are the same list. -/
private theorem eq_of_isRotated_cons {rest rest' : List String} (h : (m :: rest) ~r (m :: rest'))
    (hdistinct : (m :: rest).Nodup) : m :: rest = m :: rest' := by
  obtain ⟨n, hn⟩ := h
  have hlength : 0 < (m :: rest).length := Nat.succ_pos _
  have hfirst : (m :: rest)[n % (m :: rest).length]? = some m := by
    rw [← List.head?_rotate (Nat.mod_lt n hlength), List.rotate_mod, hn]
    rfl
  have hzero : n % (m :: rest).length = 0 :=
    (List.getElem?_inj (Nat.mod_lt n hlength) hdistinct).1
      (hfirst.trans List.getElem?_cons_zero.symm)
  rw [← hn, ← List.rotate_mod, hzero, List.rotate_zero]

/-- Distinct files have the same canonical form exactly when they are rotations of each other. -/
theorem canonical_eq_iff (hdistinct : members.Nodup) :
    canonical members = canonical members' ↔ members ~r members' := by
  constructor
  · intro he
    exact (canonical_isRotated members).symm.trans (he ▸ canonical_isRotated members')
  · intro hr
    by_cases hm : members = []
    · subst hm
      rw [List.isRotated_nil_iff'.1 hr]
    · have hm' : members' ≠ [] := fun he => hm (List.isRotated_nil_iff.1 (he ▸ hr))
      obtain ⟨m, rest, hsmallest, hcanonical⟩ := canonical_eq_cons hm
      obtain ⟨m', rest', hsmallest', hcanonical'⟩ := canonical_eq_cons hm'
      rw [smallest?_perm hr.perm, hsmallest'] at hsmallest
      cases hsmallest
      have hturned :=
        ((canonical_isRotated members).trans hr).trans (canonical_isRotated members').symm
      have hdistinct' := (canonical_isRotated members).nodup_iff.2 hdistinct
      rw [hcanonical] at hturned hdistinct' ⊢
      rw [hcanonical'] at hturned ⊢
      exact eq_of_isRotated_cons hturned hdistinct'

end Canonical

end ImportGraph

end ContractAtlas
