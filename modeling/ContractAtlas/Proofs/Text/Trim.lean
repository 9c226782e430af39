import ContractAtlas.Text.Blank
import Mathlib.Data.List.DropRight
import Mathlib.Data.List.TakeWhile

/-! Trimming takes white space from both ends of a text and stops at any other character. -/
namespace ContractAtlas.Text

/-- Every character of the text is white space. -/
def IsBlankText (t : Text) : Prop := ∀ c ∈ t, isBlank c = true

instance (t : Text) : Decidable t.IsBlankText :=
  decidable_of_iff (t.all isBlank = true) List.all_eq_true

theorem isBlankText_nil : IsBlankText [] := List.forall_mem_nil _

theorem trim_append_of_blank {s : Text} (hs : IsBlankText s) (t : Text) :
    trim (s ++ t) = trim t := by
  rw [trim, trimStart, List.dropWhile_append_of_pos hs]
  rfl

theorem trim_trimStart (t : Text) : trim (trimStart t) = trim t := by
  rw [trim, trim, trimStart, trimStart, List.dropWhile_idempotent]

theorem trimStart_append_cons {c : Char} (hc : isBlank c = false) (s t : Text) :
    trimStart (s ++ c :: t) = trimStart s ++ c :: t := by
  induction s with
  | nil => simp [trimStart, hc]
  | cons d s ih =>
    rw [trimStart, trimStart] at ih
    by_cases hd : isBlank d = true
    · simp [trimStart, hd, ih]
    · simp [trimStart, hd]

/-- The text has characters other than white space at both ends. -/
structure IsSolid (t : Text) : Prop where
  ne_nil : t ≠ []
  start : t.head?.any isBlank = false
  stop : t.getLast?.any isBlank = false

instance (t : Text) : Decidable t.IsSolid :=
  decidable_of_iff (t ≠ [] ∧ t.head?.any isBlank = false ∧ t.getLast?.any isBlank = false)
    ⟨fun h => ⟨h.1, h.2.1, h.2.2⟩, fun h => ⟨h.ne_nil, h.start, h.stop⟩⟩

/-- Trimming does not reach over a solid part of a text. -/
theorem IsSolid.trim_around {t : Text} (h : t.IsSolid) (s u : Text) :
    trim (s ++ (t ++ u)) = trimStart s ++ (t ++ trimEnd u) := by
  obtain ⟨c, rest, rfl⟩ := List.exists_cons_of_ne_nil h.ne_nil
  have hstart : trimStart (s ++ (c :: rest ++ u)) = trimStart s ++ (c :: rest ++ u) :=
    trimStart_append_cons h.start s (rest ++ u)
  obtain ⟨init, d, hlast⟩ : ∃ init d, c :: rest = init ++ [d] :=
    ⟨_, _, (List.dropLast_concat_getLast h.ne_nil).symm⟩
  have hd : isBlank d = false := by
    have hstop := h.stop
    rw [hlast, List.getLast?_concat] at hstop
    exact hstop
  have hstop : trimEnd (trimStart s ++ init ++ d :: u) = trimStart s ++ init ++ d :: trimEnd u :=
    dropEndWhile_append_cons hd (trimStart s ++ init) u
  rw [trim, hstart, hlast]
  simpa using hstop

theorem IsSolid.trim_padded {s t u : Text} (h : t.IsSolid) (hs : IsBlankText s)
    (hu : IsBlankText u) :
    trim (s ++ (t ++ u)) = t := by
  have hstart : trimStart s = [] := List.dropWhile_eq_nil_iff.2 hs
  have hstop : trimEnd u = [] := by
    rw [trimEnd, dropEndWhile, List.reverse_eq_nil_iff, List.dropWhile_eq_nil_iff]
    intro c hc
    exact hu c (List.mem_reverse.1 hc)
  rw [h.trim_around, hstart, hstop, List.nil_append, List.append_nil]

theorem IsSolid.trim_before {s t : Text} (h : t.IsSolid) (hs : IsBlankText s) :
    trim (s ++ t) = t := by
  simpa using h.trim_padded hs isBlankText_nil

theorem IsSolid.trim_after {t u : Text} (h : t.IsSolid) (hu : IsBlankText u) : trim (t ++ u) = t :=
  h.trim_padded isBlankText_nil hu

theorem IsSolid.trim_eq {t : Text} (h : t.IsSolid) : t.trim = t := h.trim_before isBlankText_nil

theorem IsSolid.append {s t : Text} (hs : s.IsSolid) (ht : t.IsSolid) (middle : Text) :
    IsSolid (s ++ (middle ++ t)) := by
  refine ⟨by simp [hs.ne_nil], ?_, ?_⟩
  · rw [List.head?_append_of_ne_nil _ hs.ne_nil]
    exact hs.start
  · rw [← List.append_assoc, List.getLast?_append_of_ne_nil _ ht.ne_nil]
    exact ht.stop

/-- A solid text does not end in white space. -/
theorem IsSolid.not_isBlankText_right {s t : Text} (h : IsSolid (s ++ t)) (ht : t ≠ []) :
    ¬ t.IsBlankText := by
  intro hblank
  have hstop := h.stop
  rw [List.getLast?_append_of_ne_nil _ ht, List.getLast?_eq_getLast_of_ne_nil ht] at hstop
  exact absurd (hblank _ (List.getLast_mem ht)) (Bool.eq_false_iff.1 hstop)

theorem dropEndWhile_append_of_pos {p : Char → Bool} {t : Text}
    (ht : ∀ c ∈ t, p c = true) (s : Text) :
    dropEndWhile p (s ++ t) = dropEndWhile p s := by
  rw [dropEndWhile, List.reverse_append, List.dropWhile_append_of_pos, dropEndWhile]
  intro c hc
  exact ht c (List.mem_reverse.1 hc)

/-- What is dropped from the end satisfies the test. -/
theorem exists_dropEndWhile (p : Char → Bool) (t : Text) :
    ∃ dropped, t = dropEndWhile p t ++ dropped ∧ ∀ c ∈ dropped, p c = true := by
  refine ⟨(t.reverse.takeWhile p).reverse, ?_, ?_⟩
  · rw [dropEndWhile, ← List.reverse_append, List.takeWhile_append_dropWhile, List.reverse_reverse]
  · intro c hc
    exact List.mem_takeWhile_imp (List.mem_reverse.1 hc)

/-- A text is its trimmed form with white space around it. -/
theorem exists_trim (t : Text) :
    ∃ before after, t = before ++ (t.trim ++ after) ∧ IsBlankText before ∧ IsBlankText after := by
  obtain ⟨after, hafter, hblank⟩ := exists_dropEndWhile isBlank t.trimStart
  refine ⟨t.takeWhile isBlank, after, ?_, fun c hc => List.mem_takeWhile_imp hc, hblank⟩
  rw [trim, trimEnd, ← hafter, trimStart, List.takeWhile_append_dropWhile]

theorem trim_isInfix (t : Text) : t.trim <:+: t := by
  obtain ⟨before, after, ht, -, -⟩ := t.exists_trim
  exact ⟨before, after, by rw [List.append_assoc]; exact ht.symm⟩

theorem IsSolid.isInfix_trim {s t : Text} (hs : s.IsSolid) (h : s <:+: t) : s <:+: t.trim := by
  obtain ⟨before, after, rfl⟩ := h
  rw [List.append_assoc, hs.trim_around, ← List.append_assoc]
  exact List.infix_append _ _ _

/-- What trimming leaves has other characters than white space at both ends, if it leaves
anything. -/
theorem isSolid_trim {t : Text} (h : t.trim ≠ []) : t.trim.IsSolid := by
  obtain ⟨dropped, hstart, -⟩ := exists_dropEndWhile isBlank t.trimStart
  refine ⟨h, ?_, ?_⟩
  · have hhead : t.trimStart.head? = t.trim.head? := by
      rw [hstart]
      exact List.head?_append_of_ne_nil _ h
    rw [← hhead, trimStart, Option.any_eq_false]
    intro c hc
    simpa [Option.mem_def.1 hc] using List.head?_dropWhile_not isBlank t
  · rw [trim, trimEnd, dropEndWhile, List.getLast?_reverse, Option.any_eq_false]
    intro c hc
    simpa [Option.mem_def.1 hc] using List.head?_dropWhile_not isBlank t.trimStart.reverse

theorem trim_trim (t : Text) : t.trim.trim = t.trim := by
  by_cases h : t.trim = []
  · rw [h]
    rfl
  · exact (isSolid_trim h).trim_eq

theorem head?_trim (t : Text) : t.trim.head?.any isBlank = false := by
  by_cases h : t.trim = []
  · rw [h]
    rfl
  · exact (isSolid_trim h).start

theorem trimEnd_trim (t : Text) : t.trim.trimEnd = t.trim := by
  rw [trim, trimEnd, trimEnd, dropEndWhile, dropEndWhile, List.reverse_reverse,
    List.dropWhile_idempotent]

theorem trim_of_ends {t : Text} (hstart : t.head?.any isBlank = false) (hend : t.trimEnd = t) :
    t.trim = t := by
  rw [trim, trimStart_of_head hstart, hend]

theorem getLast?_ne_of_trimEnd {t : Text} {c : Char} (h : t.trimEnd = t) (hc : isBlank c = true) :
    t.getLast? ≠ some c := by
  intro hlast
  obtain ⟨s, rfl⟩ := List.getLast?_eq_some_iff.1 hlast
  have hlength := congrArg List.length h
  rw [trimEnd, dropEndWhile, List.reverse_concat, List.dropWhile_cons_of_pos hc,
    List.length_reverse, List.length_append, List.length_singleton] at hlength
  have hle := (List.dropWhile_sublist isBlank (l := s.reverse)).length_le
  rw [List.length_reverse] at hle
  omega

theorem trim_append_of_blank_right {t : Text} (ht : IsBlankText t) (s : Text) :
    trim (s ++ t) = trim s := by
  obtain ⟨before, after, hs, hbefore, hafter⟩ := s.exists_trim
  have hend : IsBlankText (after ++ t) := List.forall_mem_append.2 ⟨hafter, ht⟩
  have happend : s ++ t = before ++ (s.trim ++ (after ++ t)) := by
    rw [← List.append_assoc s.trim, ← List.append_assoc before, ← hs]
  rw [happend]
  by_cases h : s.trim = []
  · have hblank : IsBlankText (before ++ (s.trim ++ (after ++ t))) := by
      rw [h]
      exact List.forall_mem_append.2 ⟨hbefore, hend⟩
    rw [← List.append_nil (before ++ _), trim_append_of_blank hblank, h]
    rfl
  · exact (isSolid_trim h).trim_padded hbefore hend

/-- Trimming takes nothing but white space. -/
theorem filter_trim (t : Text) : t.trim.filter (!isBlank ·) = t.filter (!isBlank ·) := by
  obtain ⟨before, after, ht, hbefore, hafter⟩ := t.exists_trim
  have hnone : ∀ {s : Text}, IsBlankText s → s.filter (!isBlank ·) = [] := fun hs =>
    List.filter_eq_nil_iff.2 fun c hc => by simp [hs c hc]
  conv_rhs => rw [ht, List.filter_append, List.filter_append, hnone hbefore, hnone hafter]
  rw [List.nil_append, List.append_nil]

/-- What is added to a text changes its trimmed form unless it is white space. -/
theorem trim_append_eq_iff {s t : Text} : trim (s ++ t) = trim s ↔ IsBlankText t := by
  refine ⟨fun h c hc => ?_, fun ht => trim_append_of_blank_right ht s⟩
  have hfilter := filter_trim (s ++ t)
  rw [h, filter_trim, List.filter_append, List.self_eq_append_right,
    List.filter_eq_nil_iff] at hfilter
  simpa using hfilter c hc

/-- Without white space at its start, a text keeps its start. -/
theorem trim_isPrefix {t : Text} (h : t.head?.any isBlank = false) : t.trim <+: t := by
  obtain ⟨dropped, hstart, -⟩ := exists_dropEndWhile isBlank t
  rw [trim, trimStart_of_head h]
  exact ⟨dropped, hstart.symm⟩

end ContractAtlas.Text
