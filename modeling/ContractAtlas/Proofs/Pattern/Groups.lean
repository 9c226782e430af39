import ContractAtlas.Proofs.Pattern.Meaning

/-! What a match reports. The groups of every match are texts that the groups of the pattern take,
one after the other. Of the texts that a pattern could take at a place, each repetition prefers its
longest or shortest stretch behind which the rest of the pattern goes on. -/
namespace ContractAtlas

namespace Found

/-- What is reported behind the text `s`, in which `groups` have been taken. -/
def behind (f : Found) (s : Text) (groups : List Text) : Found :=
  { whole := s ++ f.whole, groups := groups ++ f.groups, started := f.started.map (s ++ ·) }

@[simp] theorem behind_nil (f : Found) : f.behind [] [] = f := by
  simp [behind]

@[simp] theorem behind_behind (f : Found) (s t : Text) (groups more : List Text) :
    (f.behind t more).behind s groups = f.behind (s ++ t) (groups ++ more) := by
  simp [behind]

theorem push_behind (f : Found) (c : Char) (s : Text) (groups : List Text) :
    (f.behind s groups).push c = f.behind (c :: s) groups := by
  simp [behind, push]

theorem startGroup_behind_endGroup (f : Found) (s : Text) (groups : List Text) :
    (f.endGroup.behind s groups).startGroup = f.behind s (s :: groups) := by
  simp [behind, endGroup, startGroup]

end Found

namespace Pattern
variable {next : Cursor → Option Found} {accepts : Char → Bool} {previous : Option Char}
    {p q : Pattern}
  {s t rest : Text} {c : Char} {f : Found} {groups : List Text}

/-! ### Groups of a match -/

/-- The pattern takes the text `s` where `previous` is the character before it and `rest` the text
after it, and its groups take `groups`. -/
def Reads : Pattern → (previous : Option Char) → (s rest : Text) → (groups : List Text) → Prop
  | nothing, _, s, _, groups => s = [] ∧ groups = []
  | exactly c, _, s, _, groups => s = [c] ∧ groups = []
  | one accepts, _, s, _, groups => (∃ c, s = [c] ∧ accepts c = true) ∧ groups = []
  | many accepts, _, s, _, groups => (∀ c ∈ s, accepts c = true) ∧ groups = []
  | few accepts, _, s, _, groups => (∀ c ∈ s, accepts c = true) ∧ groups = []
  | seq p q, previous, s, rest, groups =>
    ∃ s₁ s₂ groups₁ groups₂, s = s₁ ++ s₂ ∧ groups = groups₁ ++ groups₂ ∧
      p.Reads previous s₁ (s₂ ++ rest) groups₁ ∧ q.Reads (s₁.getLast?.or previous) s₂ rest groups₂
  | alt p q, previous, s, rest, groups =>
    p.Reads previous s rest groups ∨ q.Reads previous s rest groups
  | group p, previous, s, rest, groups =>
    ∃ inner, groups = s :: inner ∧ p.Reads previous s rest inner
  | look holds, previous, s, rest, groups => s = [] ∧ holds previous rest.head? = true ∧ groups = []

private theorem exists_of_step (h : step accepts next ⟨previous, t⟩ = some f) :
    ∃ c rest g, t = c :: rest ∧ accepts c = true ∧ next ⟨some c, rest⟩ = some g ∧
      f = g.behind [c] [] := by
  cases t with
  | nil => cases h
  | cons c rest =>
    obtain ⟨hc, h⟩ := Option.ite_none_right_eq_some.1 h
    obtain ⟨g, hg, rfl⟩ := Option.map_eq_some_iff.1 h
    refine ⟨c, rest, g, rfl, hc, hg, ?_⟩
    rw [← Found.push_behind, Found.behind_nil]

/-- What a repetition reports, whichever stretch it prefers. -/
private def Repeats (accepts : Char → Bool) (next : Cursor → Option Found)
    (previous : Option Char) (t : Text) (f : Found) : Prop :=
  ∃ s rest g, t = s ++ rest ∧ (∀ c ∈ s, accepts c = true) ∧
    next ⟨s.getLast?.or previous, rest⟩ = some g ∧
    f = g.behind s []

private theorem repeats_of_next (h : next ⟨previous, t⟩ = some f) :
    Repeats accepts next previous t f :=
  ⟨[], t, f, rfl, List.forall_mem_nil _, h, f.behind_nil.symm⟩

private theorem Repeats.cons (hc : accepts c = true) (h : Repeats accepts next (some c) t f) :
    Repeats accepts next previous (c :: t) (f.push c) := by
  obtain ⟨s, rest, g, rfl, hs, hg, rfl⟩ := h
  refine ⟨c :: s, rest, g, rfl, List.forall_mem_cons.2 ⟨hc, hs⟩, ?_, g.push_behind c s []⟩
  rwa [getLast?_cons_or]

private theorem repeats_of_greedy (h : greedy accepts next previous t = some f) :
    Repeats accepts next previous t f := by
  induction t generalizing previous f with
  | nil => exact repeats_of_next h
  | cons c t ih =>
    rw [greedy] at h
    split at h
    · rename_i hc
      rcases Option.or_eq_some_iff.1 h with h | ⟨-, h⟩
      · obtain ⟨g, hg, rfl⟩ := Option.map_eq_some_iff.1 h
        exact (ih hg).cons hc
      · exact repeats_of_next h
    · exact repeats_of_next h

private theorem repeats_of_lazy (h : Pattern.lazy accepts next previous t = some f) :
    Repeats accepts next previous t f := by
  induction t generalizing previous f with
  | nil => exact repeats_of_next h
  | cons c t ih =>
    rw [Pattern.lazy] at h
    split at h
    · rename_i hc
      rcases Option.or_eq_some_iff.1 h with h | ⟨-, h⟩
      · exact repeats_of_next h
      · obtain ⟨g, hg, rfl⟩ := Option.map_eq_some_iff.1 h
        exact (ih hg).cons hc
    · exact repeats_of_next h

/-- A match of a pattern and of what follows it reports a text that the pattern takes, with its
groups, before what the rest reports. -/
theorem reads_of_run (h : p.run next ⟨previous, t⟩ = some f) :
    ∃ s rest groups g, t = s ++ rest ∧ p.Reads previous s rest groups ∧
      next ⟨s.getLast?.or previous, rest⟩ = some g ∧ f = g.behind s groups := by
  induction p generalizing next previous t f with
  | nothing => exact ⟨[], t, [], f, rfl, ⟨rfl, rfl⟩, h, f.behind_nil.symm⟩
  | exactly c =>
    obtain ⟨d, rest, g, rfl, hd, hg, rfl⟩ := exists_of_step h
    cases eq_of_beq hd
    exact ⟨[c], rest, [], g, rfl, ⟨rfl, rfl⟩, hg, rfl⟩
  | one accepts =>
    obtain ⟨d, rest, g, rfl, hd, hg, rfl⟩ := exists_of_step h
    exact ⟨[d], rest, [], g, rfl, ⟨⟨d, rfl, hd⟩, rfl⟩, hg, rfl⟩
  | many accepts =>
    obtain ⟨s, rest, g, ht, hs, hg, hf⟩ := repeats_of_greedy h
    exact ⟨s, rest, [], g, ht, ⟨hs, rfl⟩, hg, hf⟩
  | few accepts =>
    obtain ⟨s, rest, g, ht, hs, hg, hf⟩ := repeats_of_lazy h
    exact ⟨s, rest, [], g, ht, ⟨hs, rfl⟩, hg, hf⟩
  | seq p q hp hq =>
    obtain ⟨s₁, _, groups₁, _, rfl, hs₁, hrun, rfl⟩ := hp h
    obtain ⟨s₂, rest, groups₂, g, rfl, hs₂, hg, rfl⟩ := hq hrun
    refine ⟨s₁ ++ s₂, rest, groups₁ ++ groups₂, g, (List.append_assoc ..).symm,
      ⟨s₁, s₂, groups₁, groups₂, rfl, rfl, hs₁, hs₂⟩, ?_, Found.behind_behind ..⟩
    rwa [List.getLast?_append, Option.or_assoc]
  | alt p q hp hq =>
    rcases Option.or_eq_some_iff.1 h with h | ⟨-, h⟩
    · obtain ⟨s, rest, groups, g, ht, hs, hg, hf⟩ := hp h
      exact ⟨s, rest, groups, g, ht, .inl hs, hg, hf⟩
    · obtain ⟨s, rest, groups, g, ht, hs, hg, hf⟩ := hq h
      exact ⟨s, rest, groups, g, ht, .inr hs, hg, hf⟩
  | group p hp =>
    obtain ⟨_, hrun, rfl⟩ := Option.map_eq_some_iff.1 h
    obtain ⟨s, rest, inner, _, ht, hs, hnext, rfl⟩ := hp hrun
    obtain ⟨g, hg, rfl⟩ := Option.map_eq_some_iff.1 hnext
    exact ⟨s, rest, s :: inner, g, ht, ⟨inner, rfl, hs⟩, hg, g.startGroup_behind_endGroup s inner⟩
  | look holds =>
    obtain ⟨hholds, h⟩ := Option.ite_none_right_eq_some.1 h
    exact ⟨[], t, [], f, rfl, ⟨rfl, hholds, rfl⟩, h, f.behind_nil.symm⟩

/-- The first match of a pattern is a text that the pattern takes where it stands, with its
groups. -/
theorem reads_of_find? (h : p.find? t = some f) :
    ∃ before after, t = before ++ (f.whole ++ after) ∧
      p.Reads before.getLast? f.whole after f.groups := by
  rw [find?_eq] at h
  obtain ⟨c, hc, hmatch⟩ := List.exists_of_findSome?_eq_some h
  obtain ⟨before, _, rfl, rfl⟩ := Cursor.mem_places_iff.1 hc
  obtain ⟨s, after, groups, g, rfl, hs, hg, rfl⟩ := reads_of_run hmatch
  cases hg
  rw [Option.or_none] at hs
  refine ⟨before, after, ?_, ?_⟩
  · simp [Found.behind]
  · simpa [Found.behind] using hs

/-- Every group lies within the match. -/
theorem Reads.isInfix_of_mem (h : p.Reads previous s rest groups) {g : Text} (hg : g ∈ groups) :
    g <:+: s := by
  induction p generalizing previous s rest groups with
  | nothing | exactly | one | many | few =>
    rw [h.2] at hg
    cases hg
  | look =>
    rw [h.2.2] at hg
    cases hg
  | seq p q hp hq =>
    obtain ⟨s₁, s₂, groups₁, groups₂, rfl, rfl, h₁, h₂⟩ := h
    rcases List.mem_append.1 hg with hg | hg
    · exact (hp h₁ hg).trans (List.prefix_append s₁ s₂).isInfix
    · exact (hq h₂ hg).trans (List.suffix_append s₁ s₂).isInfix
  | alt p q hp hq => exact h.elim (fun h => hp h hg) fun h => hq h hg
  | group p hp =>
    obtain ⟨inner, rfl, hs⟩ := h
    rcases List.mem_cons.1 hg with rfl | hg
    · exact List.infix_rfl
    · exact hp hs hg

/-! ### Preferred matches -/

/-- If the rest of a pattern goes on behind `s`, then `s` is what the pattern takes, with its
groups. -/
def Prefers (p : Pattern) (next : Cursor → Option Found) (previous : Option Char) (s rest : Text)
    (groups : List Text) : Prop :=
  ∀ g, next ⟨s.getLast?.or previous, rest⟩ = some g →
    p.run next ⟨previous, s ++ rest⟩ = some (g.behind s groups)

theorem Prefers.append {more : List Text}
    (hp : p.Prefers (q.run next) previous s (t ++ rest) groups)
    (hq : q.Prefers next (s.getLast?.or previous) t rest more) :
    (p ++ q).Prefers next previous (s ++ t) rest (groups ++ more) := by
  intro g hg
  rw [List.getLast?_append, Option.or_assoc] at hg
  rw [List.append_assoc, ← Found.behind_behind]
  exact hp _ (hq g hg)

theorem Prefers.group
    (hp : p.Prefers (fun d => (next d).map Found.endGroup) previous s rest groups) :
    (group p).Prefers next previous s rest (s :: groups) := by
  intro g hg
  have hrun := hp g.endGroup (congrArg (Option.map Found.endGroup) hg)
  rw [← Found.startGroup_behind_endGroup]
  exact congrArg (Option.map Found.startGroup) hrun

theorem prefers_one (h : accepts c = true) : (one accepts).Prefers next previous [c] rest [] := by
  intro g hg
  have hnext : next ⟨some c, rest⟩ = some g := hg
  rw [run, step]
  simp only [List.singleton_append, h, if_true, hnext, Option.map_some]
  rw [← Found.push_behind, Found.behind_nil]

theorem prefers_exactly (c : Char) : (exactly c).Prefers next previous [c] rest [] :=
  prefers_one (beq_self_eq_true c)

theorem prefers_look {holds : Option Char → Option Char → Bool}
    (h : holds previous rest.head? = true) :
    (look holds).Prefers next previous [] rest [] := by
  intro g hg
  rw [Found.behind_nil]
  exact (if_pos h).trans hg

/-- A repetition takes all accepted characters if it can. -/
theorem prefers_many (hs : ∀ c ∈ s, accepts c = true) (hrest : rest.head?.any accepts = false) :
    (many accepts).Prefers next previous s rest [] := by
  intro g hg
  show greedy accepts next previous (s ++ rest) = _
  induction s generalizing previous with
  | nil =>
    rw [Found.behind_nil, ← hg]
    cases rest with
    | nil => rfl
    | cons d rest => exact if_neg (Bool.eq_false_iff.1 hrest)
  | cons d s ih =>
    rw [getLast?_cons_or] at hg
    obtain ⟨hd, hs⟩ := List.forall_mem_cons.1 hs
    rw [List.cons_append, greedy, if_pos hd, ih hs hg, Option.map_some, Option.some_or,
      Found.push_behind]

theorem prefers_several (hne : s ≠ []) (hs : ∀ c ∈ s, accepts c = true)
    (hrest : rest.head?.any accepts = false) :
    (several accepts).Prefers next previous s rest [] := by
  obtain ⟨c, s, rfl⟩ := List.exists_cons_of_ne_nil hne
  obtain ⟨hc, hs⟩ := List.forall_mem_cons.1 hs
  exact (prefers_one hc).append (prefers_many hs hrest)

/-- A repetition that takes as little as possible goes on as long as the rest does not match. -/
theorem prefers_few (hs : ∀ c ∈ s, accepts c = true)
    (hearlier : ∀ taken left, s = taken ++ left → left ≠ [] →
      next ⟨taken.getLast?.or previous, left ++ rest⟩ = none)
    (hrest : rest.head?.any accepts = false) :
    (few accepts).Prefers next previous s rest [] := by
  intro g hg
  show Pattern.lazy accepts next previous (s ++ rest) = _
  induction s generalizing previous with
  | nil =>
    rw [Found.behind_nil, ← hg]
    cases rest with
    | nil => rfl
    | cons d rest => exact if_neg (Bool.eq_false_iff.1 hrest)
  | cons d s ih =>
    rw [getLast?_cons_or] at hg
    obtain ⟨hd, hs⟩ := List.forall_mem_cons.1 hs
    have hnow : next ⟨previous, d :: (s ++ rest)⟩ = none :=
      hearlier [] (d :: s) rfl (List.cons_ne_nil d s)
    have hlater := ih hs (fun taken left he hleft => by
      rw [← getLast?_cons_or d taken previous]
      exact hearlier (d :: taken) left (by rw [he, List.cons_append]) hleft) hg
    rw [List.cons_append, Pattern.lazy, if_pos hd, hnow, Option.none_or, hlater, Option.map_some,
      Found.push_behind]

theorem Prefers.matchAt?_eq (h : p.Prefers (fun _ => some {}) previous s rest groups) :
    p.matchAt? ⟨previous, s ++ rest⟩ = some { whole := s, groups := groups } := by
  have hrun := h {} rfl
  rw [matchAt?, hrun]
  simp [Found.behind]

/-- Places without a match are passed by. -/
private theorem findSome?_places {before : Text}
    (hbefore : ∀ d ∈ before, ∀ previous u, p.matchAt? ⟨previous, d :: u⟩ = none) :
    (Cursor.places previous (before ++ t)).findSome? p.matchAt? =
      (Cursor.places (before.getLast?.or previous) t).findSome? p.matchAt? := by
  induction before generalizing previous with
  | nil => rfl
  | cons d before ih =>
    obtain ⟨hd, hbefore⟩ := List.forall_mem_cons.1 hbefore
    rw [List.cons_append, Cursor.places, List.findSome?_cons, hd, ih hbefore, getLast?_cons_or]

theorem find?_append {before : Text}
    (hbefore : ∀ d ∈ before, ∀ previous u, p.matchAt? ⟨previous, d :: u⟩ = none)
    (h : p.matchAt? ⟨before.getLast?, t⟩ = some f) : p.find? (before ++ t) = some f := by
  rw [find?_eq, findSome?_places hbefore, Option.or_none]
  cases t with
  | nil => rw [Cursor.places, List.findSome?_cons, h]
  | cons c t => rw [Cursor.places, List.findSome?_cons, h]

theorem find?_of_matchAt? (h : p.matchAt? ⟨none, t⟩ = some f) : p.find? t = some f :=
  find?_append (List.forall_mem_nil _) h

end Pattern

end ContractAtlas
