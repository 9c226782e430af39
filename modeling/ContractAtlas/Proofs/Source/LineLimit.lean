import ContractAtlas.Program.Basic
import ContractAtlas.Proofs.Source.Partition

/-! The limit on lines, told by the line endings of the text. A text has one line more than it has
endings. It is refused for its lines if these are more than a file may have, and also if they are
just as many and the last ending does not close the text. -/
namespace ContractAtlas

namespace Text

/-! ### Line endings -/

/-- How many line endings the text has; a carriage return and the line feed behind it are one. -/
def terminators : Text → Nat
  | [] => 0
  | c :: t => (if EndsLine c t then 1 else 0) + terminators t

private theorem length_breaksFrom (start : Nat) (t : Text) :
    (breaksFrom start t).length = t.terminators := by
  induction t generalizing start with
  | nil => rfl
  | cons c t ih =>
    rw [breaksFrom, terminators, List.length_append, ih]
    split <;> rfl

theorem length_lines (t : Text) : t.lines.length = t.terminators + 1 := by
  rw [← length_lineStarts, lineStarts_eq_breaks, List.length_cons, length_breaksFrom]

theorem terminators_replicate (n : Nat) (t : Text) :
    terminators (List.replicate n '\n' ++ t) = n + t.terminators := by
  induction n with
  | zero => exact (Nat.zero_add _).symm
  | succ n ih =>
    rw [List.replicate_succ, List.cons_append, terminators, ih, if_pos (.inl rfl)]
    omega

/-- The text goes on behind its last line ending. -/
def EndsOpen (t : Text) : Prop := ∃ c, t.getLast? = some c ∧ c ≠ '\r' ∧ c ≠ '\n'

private theorem not_endsOpen_append (s : Text) (ending : LineEnding) :
    ¬ EndsOpen (s ++ ending.text) := by
  rintro ⟨c, hc, hreturn, hfeed⟩
  cases ending with
  | lineFeed =>
    rw [LineEnding.text, List.getLast?_concat] at hc
    exact hfeed (Option.some.inj hc).symm
  | returnFeed =>
    rw [LineEnding.text, List.append_cons, List.getLast?_concat] at hc
    exact hfeed (Option.some.inj hc).symm
  | carriageReturn =>
    rw [LineEnding.text, List.getLast?_concat] at hc
    exact hreturn (Option.some.inj hc).symm

/-- What goes on behind the last line ending is the last line. -/
theorem endsOpen_iff (t : Text) : t.EndsOpen ↔ ∃ l, t.lines.getLast? = some l ∧ l.body ≠ [] := by
  obtain ⟨full, last, hlines, hlast, hfull⟩ := t.exists_lines_eq
  have hlast? : t.lines.getLast? = some last := by rw [hlines, List.getLast?_concat]
  have htext : t = full.flatMap Line.text ++ last.body := by
    have hlastText : last.text = last.body := by
      rw [Line.text, hlast]
      exact List.append_nil last.body
    rw [← hlastText, ← List.flatMap_singleton Line.text last, ← List.flatMap_append, ← hlines,
      flatMap_text_lines]
  constructor
  · refine fun hopen => ⟨last, hlast?, fun hbody => ?_⟩
    rw [hbody, List.append_nil] at htext
    -- Without a last line the text is empty or ends with the ending of the line before.
    rcases List.eq_nil_or_concat full with rfl | ⟨init, l, rfl⟩
    · obtain ⟨c, hc, -⟩ := hopen
      rw [htext] at hc
      cases hc
    · cases hending : l.ending with
      | none => exact hfull l (by simp) hending
      | some ending =>
        refine not_endsOpen_append (init.flatMap Line.text ++ l.body) ending ?_
        have hl : l.text = l.body ++ ending.text := by
          rw [Line.text, hending]
          rfl
        rwa [htext, List.concat_eq_append, List.flatMap_append, List.flatMap_singleton, hl,
          ← List.append_assoc] at hopen
  · rintro ⟨l, hl, hbody⟩
    cases hlast?.symm.trans hl
    have hplain : last.body.Unbroken := unbroken_of_mem_lines (List.mem_of_getLast? hlast?)
    have hmem := List.getLast_mem hbody
    refine ⟨last.body.getLast hbody, ?_,
      fun hc => hplain.1 (hc ▸ hmem), fun hc => hplain.2 (hc ▸ hmem)⟩
    rw [htext, List.getLast?_append, List.getLast?_eq_some_getLast hbody, Option.some_or]

end Text

namespace SourceFile

/-- The text is over the limit on lines: it has more lines than a file may have, or just as many and
does not end with a line ending. -/
def OverLines (t : Text) : Prop :=
  maxLines < t.terminators + 1 ∨ t.terminators + 1 = maxLines ∧ t.EndsOpen

/-- A text of a size that a file may have is refused for its lines or not at all. -/
theorem refusal?_eq_some_iff {t : Text} (hsize : t.byteSize ≤ maxBytes) {e : SourceError} :
    refusal? t = some e ↔ e = .tooManyLines maxLines ∧ OverLines t := by
  have hover : (refusal? t).isSome = true ↔ OverLines t := by
    rw [isSome_refusal?_iff, OverLimit, OverLines, Text.length_lines, Text.endsOpen_iff]
    exact or_iff_right (Nat.not_lt.2 hsize)
  have hcause : ∀ e, refusal? t = some e → e = .tooManyLines maxLines := by
    intro e he
    rw [refusal?, if_neg (Nat.not_lt.2 hsize)] at he
    split at he
    · exact (Option.some.inj (Option.ite_none_left_eq_some.1 he).2).symm
    · cases he
  refine ⟨fun he => ⟨hcause e he, hover.1 (Option.isSome_of_eq_some he)⟩, ?_⟩
  rintro ⟨rfl, h⟩
  obtain ⟨e, he⟩ := Option.isSome_iff_exists.1 (hover.2 h)
  rw [he, hcause e he]

end SourceFile

namespace Program

theorem addFile_eq_error_iff {p : Program} {path : String} {t : Text} {cause : SourceError} :
    p.addFile path t = .error (.source cause) ↔ SourceFile.refusal? t = some cause := by
  rw [addFile]
  cases SourceFile.refusal? t with
  | none => exact iff_of_false (fun h => by cases h) (Option.some_ne_none cause).symm
  | some e => rw [Except.error.injEq, ProgramError.source.injEq, Option.some.injEq]

/-- A text that is not too large is refused for its lines if and only if it has more of them than a
file may have, or just as many and does not end with a line ending. Its lines are one more than its
line endings. -/
theorem addFile_tooManyLines_iff (p : Program) (path : String) {t : Text}
    (hsize : t.byteSize ≤ SourceFile.maxBytes) :
    t.lines.length = t.terminators + 1 ∧
      ((∃ count, p.addFile path t = .error (.source (.tooManyLines count))) ↔
        SourceFile.maxLines < t.terminators + 1 ∨
          t.terminators + 1 = SourceFile.maxLines ∧ t.EndsOpen) := by
  refine ⟨t.length_lines, ?_⟩
  simp only [addFile_eq_error_iff, SourceFile.refusal?_eq_some_iff hsize]
  refine ⟨?_, fun h => ⟨SourceFile.maxLines, rfl, h⟩⟩
  rintro ⟨-, -, h⟩
  exact h

/-- With nothing on its last line, a file may have as many lines as the limit says. -/
theorem addFile_tooManyLines_iff_sample :
    (SourceFile.onLastLine []).byteSize ≤ SourceFile.maxBytes ∧
      (SourceFile.onLastLine []).lines.length = SourceFile.maxLines ∧
      ¬ ∃ count, ({} : Program).addFile "Long.sol" (SourceFile.onLastLine []) =
        .error (.source (.tooManyLines count)) := by
  have hsize : (SourceFile.onLastLine []).byteSize ≤ SourceFile.maxBytes := by
    rw [SourceFile.byteSize_onLastLine]
    decide
  have hcount : (SourceFile.onLastLine []).terminators + 1 = SourceFile.maxLines := by
    rw [SourceFile.onLastLine, Text.terminators_replicate]
    rfl
  have hlast : (SourceFile.onLastLine []).getLast? = some '\n' := by
    rw [SourceFile.onLastLine, List.append_nil, List.getLast?_replicate]
    exact if_neg (by decide)
  obtain ⟨hlength, hrefused⟩ := addFile_tooManyLines_iff {} "Long.sol" hsize
  refine ⟨hsize, hlength.trans hcount, fun h => ?_⟩
  rcases hrefused.1 h with hmore | ⟨-, c, hc, -, hfeed⟩
  · exact Nat.lt_irrefl _ (hcount ▸ hmore)
  · exact hfeed (Option.some.inj (hlast.symm.trans hc)).symm

end Program

namespace Sample

/-- An empty line, and `n` more lines with a letter each. -/
def letterLines (n : Nat) : Text := (List.replicate n ['\n', 'x']).flatten

theorem terminators_letterLines (n : Nat) : (letterLines n).terminators = n := by
  induction n with
  | zero => rfl
  | succ n ih =>
    have hfirst : letterLines (n + 1) = '\n' :: 'x' :: letterLines n := rfl
    have hletter : ¬ Text.EndsLine 'x' (letterLines n) := by simp [Text.EndsLine]
    rw [hfirst, Text.terminators, Text.terminators, ih, if_pos (.inl rfl), if_neg hletter]
    omega

theorem byteSize_letterLines (n : Nat) : (letterLines n).byteSize = 2 * n := by
  induction n with
  | zero => rfl
  | succ n ih =>
    have hfirst : letterLines (n + 1) = ['\n', 'x'] ++ letterLines n := rfl
    rw [hfirst, Text.byteSize_append, ih, Nat.mul_succ, Nat.add_comm]
    rfl

theorem endsOpen_letterLines (n : Nat) : (letterLines (n + 1)).EndsOpen := by
  refine ⟨'x', ?_, by decide, by decide⟩
  rw [letterLines, List.replicate_succ', List.flatten_append, List.flatten_singleton,
    List.getLast?_append]
  rfl

end Sample

/-- A file with just as many lines as it may have is refused if its last line has a letter. -/
theorem Program.full_lines_refused :
    let t := Sample.letterLines (SourceFile.maxLines - 1)
    t.byteSize ≤ SourceFile.maxBytes ∧ t.terminators + 1 = SourceFile.maxLines ∧
      ({} : Program).addFile "Long.sol" t =
        .error (.source (.tooManyLines SourceFile.maxLines)) := by
  intro t
  have hsize : t.byteSize ≤ SourceFile.maxBytes := by
    rw [Sample.byteSize_letterLines]
    decide
  have hcount : t.terminators + 1 = SourceFile.maxLines := by
    rw [Sample.terminators_letterLines]
    rfl
  refine ⟨hsize, hcount,
    addFile_eq_error_iff.2 ((SourceFile.refusal?_eq_some_iff hsize).2 ⟨rfl, .inr ⟨hcount, ?_⟩⟩)⟩
  exact Sample.endsOpen_letterLines (SourceFile.maxLines - 2)

end ContractAtlas
