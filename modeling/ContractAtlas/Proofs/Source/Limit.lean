import ContractAtlas.Proofs.Text.Position
import ContractAtlas.Source.File

/-! The limits on files. A file may fill all lines but the last allowed one, which has to stay
empty. -/
namespace ContractAtlas

namespace Text

private theorem lines_go_append (t body : Text) (done more : List Line) :
    lines.go t body (done ++ more) = more.reverse ++ lines.go t body done := by
  fun_induction lines.go t body done with
  | case1 body done => simp [lines.go]
  | case2 body done t ih => rw [lines.go, ← ih, List.cons_append]
  | case3 body done t ht ih => rw [lines.go, ← ih, List.cons_append]; exact ht
  | case4 body done t ih => rw [lines.go, ← ih, List.cons_append]
  | case5 body done c t h₁ h₂ h₃ ih => rw [lines.go, ih] <;> assumption

theorem lines_lineFeed (t : Text) : lines ('\n' :: t) = ⟨[], some .lineFeed⟩ :: t.lines :=
  lines_go_append t [] [] [⟨[], some .lineFeed⟩]

theorem lines_replicate (n : Nat) (t : Text) :
    lines (List.replicate n '\n' ++ t) = List.replicate n ⟨[], some .lineFeed⟩ ++ t.lines := by
  induction n with
  | zero => rfl
  | succ n ih =>
    rw [List.replicate_succ, List.cons_append, lines_lineFeed, ih, List.replicate_succ,
      List.cons_append]

private theorem lines_go_endings {t body : Text} {done : List Line}
    (hdone : ∀ l ∈ done, l.ending ≠ none) :
    ∃ full last, lines.go t body done = full ++ [last] ∧ last.ending = none ∧
      ∀ l ∈ full, l.ending ≠ none := by
  fun_induction lines.go t body done with
  | case1 body done =>
    exact ⟨done.reverse, ⟨body.reverse, none⟩, List.reverse_cons, rfl,
      fun l hl => hdone l (List.mem_reverse.1 hl)⟩
  | case2 body done t ih => exact ih (List.forall_mem_cons.2 ⟨Option.some_ne_none _, hdone⟩)
  | case3 body done t _ ih => exact ih (List.forall_mem_cons.2 ⟨Option.some_ne_none _, hdone⟩)
  | case4 body done t ih => exact ih (List.forall_mem_cons.2 ⟨Option.some_ne_none _, hdone⟩)
  | case5 body done c t _ _ _ ih => exact ih hdone

/-- The last line has no ending, and all others do. -/
theorem exists_lines_eq (t : Text) :
    ∃ full last, t.lines = full ++ [last] ∧ last.ending = none ∧ ∀ l ∈ full, l.ending ≠ none :=
  lines_go_endings fun _ hl => nomatch hl

end Text

namespace Line

theorem text_eq_nil_iff {l : Line} : l.text = [] ↔ l.body = [] ∧ l.ending = none := by
  rcases l with ⟨body, _ | ending⟩
  · simp [text]
  · cases ending <;> simp [text, LineEnding.text]

end Line

namespace SourceFile

/-- The text is larger than a file may be, or has more lines, or as many lines as a file may have
and something on the last of them. -/
def OverLimit (t : Text) : Prop :=
  maxBytes < t.byteSize ∨ maxLines < t.lines.length ∨
    t.lines.length = maxLines ∧ ∃ l, t.lines.getLast? = some l ∧ l.body ≠ []

/-- The line that decides is empty only if it is the last one. -/
private theorem exists_drop_lines_iff (t : Text) :
    (∃ l rest, t.lines.drop (maxLines - 1) = l :: rest ∧ l.text ≠ []) ↔
      maxLines < t.lines.length ∨
        t.lines.length = maxLines ∧ ∃ l, t.lines.getLast? = some l ∧ l.body ≠ [] := by
  obtain ⟨full, last, hlines, hlast, hfull⟩ := t.exists_lines_eq
  have hlength : t.lines.length = full.length + 1 := by rw [hlines, List.length_append]; rfl
  have hlast? : t.lines.getLast? = some last := by rw [hlines, List.getLast?_concat]
  have hpos : 0 < maxLines := by decide
  rcases Nat.lt_trichotomy full.length (maxLines - 1) with hlt | heq | hgt
  · have hdrop : t.lines.drop (maxLines - 1) = [] := List.drop_eq_nil_of_le (by omega)
    constructor
    · rintro ⟨l, rest, hl, -⟩
      rw [hdrop] at hl
      cases hl
    · rintro (h | ⟨h, -⟩) <;> omega
  · have hdrop : t.lines.drop (maxLines - 1) = [last] := by rw [hlines, ← heq, List.drop_left]
    constructor
    · rintro ⟨l, rest, hl, htext⟩
      rw [hdrop] at hl
      cases hl
      exact .inr ⟨by omega, last, hlast?,
        fun hbody => htext (Line.text_eq_nil_iff.2 ⟨hbody, hlast⟩)⟩
    · rintro (h | ⟨-, l, hl, hbody⟩)
      · omega
      · cases hlast?.symm.trans hl
        exact ⟨last, [], hdrop, fun htext => hbody (Line.text_eq_nil_iff.1 htext).1⟩
  · refine ⟨fun _ => .inl (by omega), fun _ => ?_⟩
    have hdrop : t.lines.drop (maxLines - 1) =
        full[maxLines - 1] :: (full.drop maxLines ++ [last]) := by
      rw [hlines, List.drop_append_of_le_length (Nat.le_of_lt hgt), List.drop_eq_getElem_cons hgt,
        Nat.sub_add_cancel hpos]
      rfl
    exact ⟨_, _, hdrop,
      fun htext => hfull _ (List.getElem_mem hgt) (Line.text_eq_nil_iff.1 htext).2⟩

theorem isSome_refusal?_iff (t : Text) : (refusal? t).isSome = true ↔ OverLimit t := by
  rw [OverLimit, ← exists_drop_lines_iff, refusal?]
  by_cases hsize : maxBytes < t.byteSize
  · simp only [hsize, if_true, Option.isSome_some, true_or]
  · simp only [hsize, if_false, false_or]
    cases t.lines.drop (maxLines - 1) with
    | nil => exact ⟨nofun, fun h => by obtain ⟨l, rest, hl, -⟩ := h; cases hl⟩
    | cons l rest =>
      have hfirst : (∃ l' rest', l :: rest = l' :: rest' ∧ l'.text ≠ []) ↔ l.text ≠ [] := by
        refine ⟨?_, fun h => ⟨l, rest, rfl, h⟩⟩
        rintro ⟨l', rest', hl, htext⟩
        cases hl
        exact htext
      rw [hfirst]
      cases htext : l.text <;> simp [htext]

theorem not_overLimit {t : Text} (h : refusal? t = none) : ¬ OverLimit t := by
  rw [← isSome_refusal?_iff, h]
  exact Bool.false_ne_true

theorem byteSize_lt {t : Text} (h : refusal? t = none) : t.byteSize < UInt32.size :=
  Nat.not_le.1 fun hlarge => not_overLimit h (.inl hlarge)

theorem length_lines_le {t : Text} (h : refusal? t = none) : t.lines.length ≤ maxLines :=
  Nat.not_lt.1 fun hmore => not_overLimit h (.inr (.inl hmore))

/-- A text on the last line that a file may have, with nothing before it. -/
def onLastLine (t : Text) : Text := List.replicate (maxLines - 1) '\n' ++ t

theorem byteSize_onLastLine (t : Text) : (onLastLine t).byteSize = maxLines - 1 + t.byteSize := by
  rw [onLastLine, Text.byteSize_append, Text.byteSize_replicate]
  rfl

theorem lines_onLastLine (t : Text) :
    (onLastLine t).lines = List.replicate (maxLines - 1) ⟨[], some .lineFeed⟩ ++ t.lines :=
  Text.lines_replicate _ t

/-- Such a file is refused though its lines are within the limit. -/
theorem refusal?_onLastLine {t : Text} {l : Line} (hlines : t.lines = [l]) (hl : l.text ≠ [])
    (hsize : maxLines - 1 + t.byteSize ≤ maxBytes) :
    refusal? (onLastLine t) = some (.tooManyLines maxLines) := by
  have hdrop : (onLastLine t).lines.drop (maxLines - 1) = [l] := by
    rw [lines_onLastLine, List.drop_left' List.length_replicate, hlines]
  rw [refusal?, byteSize_onLastLine, if_neg (Nat.not_lt.2 hsize), hdrop]
  exact if_neg (by rwa [List.isEmpty_iff])

end SourceFile

end ContractAtlas
