import ContractAtlas.Pattern.Rule
import Mathlib.Data.List.Basic

/-! What patterns take, whichever match is preferred. A pattern occurs in a text exactly when the
text has a part that the pattern takes where it stands. -/
namespace ContractAtlas

/-- The character before what follows `d :: s` does not depend on what stands before `d`. -/
theorem getLast?_cons_or (d : Char) (s : Text) (previous : Option Char) :
    (d :: s).getLast?.or previous = s.getLast?.or (some d) := by
  rw [List.getLast?_cons]
  cases s.getLast? <;> rfl

namespace Cursor

theorem mem_places_iff {previous : Option Char} {t : Text} {c : Cursor} :
    c ∈ places previous t ↔
      ∃ before after, t = before ++ after ∧ c = ⟨before.getLast?.or previous, after⟩ := by
  induction t generalizing previous with
  | nil => simp [places]
  | cons d t ih =>
    rw [places, List.mem_cons, ih]
    constructor
    · rintro (rfl | ⟨before, after, rfl, rfl⟩)
      · exact ⟨[], d :: t, rfl, rfl⟩
      · exact ⟨d :: before, after, rfl, by rw [getLast?_cons_or]⟩
    · rintro ⟨before, after, ht, rfl⟩
      cases before with
      | nil =>
        left
        rw [ht]
        rfl
      | cons e before =>
        obtain ⟨rfl, rfl⟩ := List.cons.inj ht
        exact .inr ⟨before, after, rfl, by rw [getLast?_cons_or]⟩

end Cursor

namespace Pattern

/-- The pattern takes the text `s` where `previous` is the character before it and `rest` the text
after it. -/
def Takes : Pattern → (previous : Option Char) → (s rest : Text) → Prop
  | nothing, _, s, _ => s = []
  | exactly c, _, s, _ => s = [c]
  | one accepts, _, s, _ => ∃ c, s = [c] ∧ accepts c = true
  | many accepts, _, s, _ => ∀ c ∈ s, accepts c = true
  | few accepts, _, s, _ => ∀ c ∈ s, accepts c = true
  | seq p q, previous, s, rest =>
    ∃ s₁ s₂, s = s₁ ++ s₂ ∧ p.Takes previous s₁ (s₂ ++ rest) ∧
      q.Takes (s₁.getLast?.or previous) s₂ rest
  | alt p q, previous, s, rest => p.Takes previous s rest ∨ q.Takes previous s rest
  | group p, previous, s, rest => p.Takes previous s rest
  | look holds, previous, s, rest => s = [] ∧ holds previous rest.head? = true

variable {next : Cursor → Option Found} {accepts : Char → Bool} {previous : Option Char}

private theorem isSome_step {t : Text} :
    (step accepts next ⟨previous, t⟩).isSome = true ↔
      ∃ c rest, t = c :: rest ∧ accepts c = true ∧ (next ⟨some c, rest⟩).isSome = true := by
  cases t with
  | nil => simp [step]
  | cons d t =>
    by_cases hd : accepts d = true
    · simp [step, hd]
    · simp [step, hd]

/-- The rest of a pattern goes on behind some stretch of accepted characters. -/
private def GoesOn (accepts : Char → Bool) (next : Cursor → Option Found) (previous : Option Char)
    (t : Text) : Prop :=
  ∃ s rest, t = s ++ rest ∧ (∀ c ∈ s, accepts c = true) ∧
    (next ⟨s.getLast?.or previous, rest⟩).isSome = true

private theorem goesOn_nil : GoesOn accepts next previous [] ↔
    (next ⟨previous, []⟩).isSome = true := by
  simp [GoesOn]

private theorem goesOn_cons {d : Char} {t : Text} :
    GoesOn accepts next previous (d :: t) ↔
      (next ⟨previous, d :: t⟩).isSome = true ∨ accepts d = true ∧
      GoesOn accepts next (some d) t := by
  constructor
  · rintro ⟨s, rest, ht, hs, hnext⟩
    cases s with
    | nil =>
      rw [ht]
      exact .inl hnext
    | cons e s =>
      obtain ⟨rfl, rfl⟩ := List.cons.inj ht
      rw [getLast?_cons_or] at hnext
      exact .inr ⟨hs d List.mem_cons_self, s, rest, rfl,
        fun c hc => hs c (List.mem_cons_of_mem _ hc), hnext⟩
  · rintro (hnext | ⟨hd, s, rest, rfl, hs, hnext⟩)
    · exact ⟨[], d :: t, rfl, by simp, hnext⟩
    · refine ⟨d :: s, rest, rfl, ?_, ?_⟩
      · simpa [hd] using hs
      · rwa [getLast?_cons_or]

private theorem isSome_greedy {t : Text} :
    (greedy accepts next previous t).isSome = true ↔ GoesOn accepts next previous t := by
  induction t generalizing previous with
  | nil => rw [greedy, goesOn_nil]
  | cons d t ih =>
    rw [greedy, goesOn_cons, ← ih]
    by_cases hd : accepts d = true
    · simp [hd, or_comm]
    · simp [hd]

private theorem isSome_lazy {t : Text} :
    (Pattern.lazy accepts next previous t).isSome = true ↔ GoesOn accepts next previous t := by
  induction t generalizing previous with
  | nil => rw [Pattern.lazy, goesOn_nil]
  | cons d t ih =>
    rw [Pattern.lazy, goesOn_cons, ← ih]
    by_cases hd : accepts d = true
    · simp [hd]
    · simp [hd]

/-- A pattern and what follows it match at a place exactly when the pattern takes some text there
behind which the rest matches. -/
theorem isSome_run (p : Pattern) (next : Cursor → Option Found)
    (previous : Option Char) (t : Text) :
    (p.run next ⟨previous, t⟩).isSome = true ↔
      ∃ s rest, t = s ++ rest ∧ p.Takes previous s rest ∧
        (next ⟨s.getLast?.or previous, rest⟩).isSome = true := by
  induction p generalizing next previous t with
  | nothing => simp [run, Takes]
  | exactly c =>
    rw [run, isSome_step]
    constructor
    · rintro ⟨d, rest, rfl, hd, hnext⟩
      cases eq_of_beq hd
      exact ⟨[c], rest, rfl, rfl, hnext⟩
    · rintro ⟨s, rest, rfl, rfl, hnext⟩
      exact ⟨c, rest, rfl, beq_self_eq_true c, hnext⟩
  | one accepts =>
    rw [run, isSome_step]
    constructor
    · rintro ⟨d, rest, rfl, hd, hnext⟩
      exact ⟨[d], rest, rfl, ⟨d, rfl, hd⟩, hnext⟩
    · rintro ⟨s, rest, rfl, ⟨d, rfl, hd⟩, hnext⟩
      exact ⟨d, rest, rfl, hd, hnext⟩
  | many accepts => exact isSome_greedy
  | few accepts => exact isSome_lazy
  | seq p q hp hq =>
    rw [run, hp]
    constructor
    · rintro ⟨s₁, rest₁, rfl, hs₁, hrun⟩
      obtain ⟨s₂, rest, rfl, hs₂, hnext⟩ := (hq _ _ _).1 hrun
      refine ⟨s₁ ++ s₂, rest, (List.append_assoc ..).symm, ⟨s₁, s₂, rfl, hs₁, hs₂⟩, ?_⟩
      rwa [List.getLast?_append, Option.or_assoc]
    · rintro ⟨s, rest, rfl, ⟨s₁, s₂, rfl, hs₁, hs₂⟩, hnext⟩
      rw [List.getLast?_append, Option.or_assoc] at hnext
      exact ⟨s₁, s₂ ++ rest, List.append_assoc .., hs₁, (hq _ _ _).2 ⟨s₂, rest, rfl, hs₂, hnext⟩⟩
  | alt p q hp hq =>
    simp only [run, Option.isSome_or, Bool.or_eq_true, hp, hq, Takes]
    constructor
    · rintro (⟨s, rest, ht, hs, hnext⟩ | ⟨s, rest, ht, hs, hnext⟩)
      · exact ⟨s, rest, ht, .inl hs, hnext⟩
      · exact ⟨s, rest, ht, .inr hs, hnext⟩
    · rintro ⟨s, rest, ht, hs | hs, hnext⟩
      · exact .inl ⟨s, rest, ht, hs, hnext⟩
      · exact .inr ⟨s, rest, ht, hs, hnext⟩
  | group p hp => simp only [run, Option.isSome_map, hp, Takes]
  | look holds =>
    by_cases hholds : holds previous t.head? = true
    · simp [run, Takes, hholds]
    · simp [run, Takes, hholds]

/-- A pattern occurs in a text exactly when it takes some part of the text where that part
stands. -/
theorem occursIn_iff_takes (p : Pattern) (t : Text) :
    p.occursIn t = true ↔
      ∃ before s after, t = before ++ (s ++ after) ∧ p.Takes before.getLast? s after := by
  rw [occursIn_iff]
  constructor
  · rintro ⟨c, hc, hmatch⟩
    obtain ⟨before, rest, rfl, rfl⟩ := Cursor.mem_places_iff.1 hc
    obtain ⟨s, after, rfl, hs, -⟩ := (isSome_run ..).1 hmatch
    rw [Option.or_none] at hs
    exact ⟨before, s, after, rfl, hs⟩
  · rintro ⟨before, s, after, rfl, hs⟩
    refine ⟨⟨before.getLast?, s ++ after⟩,
      Cursor.mem_places_iff.2 ⟨before, s ++ after, rfl, ?_⟩, ?_⟩
    · rw [Option.or_none]
    · exact (isSome_run ..).2 ⟨s, after, rfl, hs, rfl⟩

theorem takes_literal_iff {s : String} {previous : Option Char} {t rest : Text} :
    (literal s).Takes previous t rest ↔ t = s.toList := by
  rw [literal]
  induction s.toList generalizing previous t with
  | nil => exact Iff.rfl
  | cons c u ih => simp [Takes, ih]

theorem takes_several_iff {s rest : Text} :
    (several accepts).Takes previous s rest ↔ s ≠ [] ∧ ∀ c ∈ s, accepts c = true := by
  constructor
  · rintro ⟨_, s₂, rfl, ⟨c, rfl, hc⟩, hs₂⟩
    exact ⟨List.cons_ne_nil _ _, List.forall_mem_cons.2 ⟨hc, hs₂⟩⟩
  · rintro ⟨hs, haccepts⟩
    obtain ⟨c, s₂, rfl⟩ := List.exists_cons_of_ne_nil hs
    obtain ⟨hc, hs₂⟩ := List.forall_mem_cons.1 haccepts
    exact ⟨[c], s₂, rfl, ⟨c, rfl, hc⟩, hs₂⟩

/-- Before a text that starts with a word character there is the edge of a word exactly if no word
character stands before it. -/
theorem takes_wordEdge_iff {s rest : Text} {c : Char} (hc : Text.isWord c = true) :
    wordEdge.Takes previous s (c :: rest) ↔ s = [] ∧ previous.any Text.isWord = false := by
  refine and_congr_right fun _ => ?_
  show (previous.any Text.isWord != Text.isWord c) = true ↔ _
  rw [hc]
  cases previous.any Text.isWord <;> decide

/-! ### Texts that a pattern takes wherever they stand -/

/-- The pattern takes `s` wherever it stands. -/
def TakesAnywhere (p : Pattern) (s : Text) : Prop := ∀ previous rest, p.Takes previous s rest

theorem TakesAnywhere.append {p q : Pattern} {s t : Text} (hp : p.TakesAnywhere s)
    (hq : q.TakesAnywhere t) : (p ++ q).TakesAnywhere (s ++ t) := by
  intro previous rest
  exact ⟨s, t, rfl, hp _ _, hq _ _⟩

theorem takesAnywhere_exactly (c : Char) : (exactly c).TakesAnywhere [c] := fun _ _ => rfl

theorem takesAnywhere_one {accepts : Char → Bool} {c : Char} (h : accepts c = true) :
    (one accepts).TakesAnywhere [c] := fun _ _ => ⟨c, rfl, h⟩

theorem takesAnywhere_literal (s : String) : (literal s).TakesAnywhere s.toList :=
  fun _ _ => takes_literal_iff.2 rfl

/-- White space may be missing. -/
theorem takesAnywhere_gap : gap.TakesAnywhere [] := by
  intro previous rest c hc
  cases hc

theorem TakesAnywhere.occursIn {p : Pattern} {s t : Text} (hp : p.TakesAnywhere s) (h : s <:+: t) :
    p.occursIn t = true := by
  obtain ⟨before, after, rfl⟩ := h
  rw [List.append_assoc]
  exact (occursIn_iff_takes ..).2 ⟨before, s, after, rfl, hp _ _⟩

/-! ### Words without which a pattern takes nothing -/

/-- Whatever the pattern takes has the text `w` in it. -/
def Demands (p : Pattern) (w : Text) : Prop := ∀ previous s rest, p.Takes previous s rest → w <:+: s

theorem demands_literal (s : String) : (literal s).Demands s.toList := by
  intro previous t rest h
  obtain rfl := takes_literal_iff.1 h
  exact List.infix_rfl

theorem Demands.left {p : Pattern} {w : Text} (h : p.Demands w) (q : Pattern) :
    (p ++ q).Demands w := by
  rintro previous s rest ⟨s₁, s₂, rfl, hs, -⟩
  exact (h _ _ _ hs).trans (List.prefix_append s₁ s₂).isInfix

theorem Demands.right {q : Pattern} {w : Text} (h : q.Demands w) (p : Pattern) :
    (p ++ q).Demands w := by
  rintro previous s rest ⟨s₁, s₂, rfl, -, hs⟩
  exact (h _ _ _ hs).trans (List.suffix_append s₁ s₂).isInfix

theorem Demands.isInfix_of_occursIn {p : Pattern} {w t : Text} (h : p.Demands w)
    (hp : p.occursIn t = true) : w <:+: t := by
  obtain ⟨before, s, after, rfl, hs⟩ := (occursIn_iff_takes ..).1 hp
  exact (h _ _ _ hs).trans ⟨before, after, List.append_assoc ..⟩

end Pattern

end ContractAtlas
