import ContractAtlas.Proofs.Source.LineBreak
import ContractAtlas.Proofs.Text.Trim

/-! The lines of a file partition its text. Every line but the last one is followed by exactly one
ending, no line holds a character of an ending, and the line starts are the places where the lines
stand. -/
namespace ContractAtlas

namespace Text

/-! ### The lines make up the text -/

/-- The text is made up of the lines. Each line but the last one is followed by an ending, and a
carriage return is one only where no line feed follows it. -/
inductive MadeOf : Text → List Text → Prop
  | last (line : Text) : MadeOf line [line]
  | more (line : Text) (ending : LineEnding) {rest : Text} {lines : List Text}
      (halone : ending = .carriageReturn → rest.head? ≠ some '\n') (hrest : MadeOf rest lines) :
      MadeOf (line ++ (ending.text ++ rest)) (line :: lines)

/-- The text has no character that ends lines. -/
def Unbroken (t : Text) : Prop := '\r' ∉ t ∧ '\n' ∉ t

theorem unbroken_nil : Unbroken [] := ⟨List.not_mem_nil, List.not_mem_nil⟩

/-- The scanner has gone on from the lines `done` to `result`: the lines it has added make up `t`,
and none of them holds an ending. -/
private def GoesOn (done result : List Line) (t : Text) : Prop :=
  ∃ added, result = done.reverse ++ added ∧ t.MadeOf (added.map Line.body) ∧
    ∀ l ∈ added, l.body.Unbroken

private theorem GoesOn.more {line rest : Text} {ending : LineEnding} {done result : List Line}
    (h : GoesOn (⟨line, some ending⟩ :: done) result rest) (hline : line.Unbroken)
    (halone : ending = .carriageReturn → rest.head? ≠ some '\n') :
    GoesOn done result (line ++ (ending.text ++ rest)) := by
  obtain ⟨added, rfl, hmade, hadded⟩ := h
  refine ⟨⟨line, some ending⟩ :: added, ?_, .more line ending halone hmade,
    List.forall_mem_cons.2 ⟨hline, hadded⟩⟩
  rw [List.reverse_cons, List.append_assoc, List.singleton_append]

/-- The line begun and the rest of the text are made up of the lines that the scanner adds. -/
private theorem goesOn_lines_go (t body : Text) (done : List Line) (hbody : Unbroken body.reverse) :
    GoesOn done (lines.go t body done) (body.reverse ++ t) := by
  fun_induction lines.go t body done with
  | case1 body done =>
    refine ⟨[⟨body.reverse, none⟩], List.reverse_cons, ?_, List.forall_mem_singleton.2 hbody⟩
    rw [List.append_nil]
    exact .last body.reverse
  | case2 t body done ih => exact (ih unbroken_nil).more hbody LineEnding.noConfusion
  | case3 t body done ht ih =>
    refine (ih unbroken_nil).more hbody fun _ hfeed => ?_
    obtain ⟨rest, rfl⟩ := List.head?_eq_some_iff.1 hfeed
    exact ht rest rfl
  | case4 t body done ih => exact (ih unbroken_nil).more hbody LineEnding.noConfusion
  | case5 c t body done _ hreturn hfeed ih =>
    rw [List.reverse_cons, List.append_assoc, List.singleton_append] at ih
    refine ih ⟨?_, ?_⟩
    · rw [List.mem_append, not_or]
      exact ⟨hbody.1, mt List.mem_singleton.1 fun h => hreturn h.symm⟩
    · rw [List.mem_append, not_or]
      exact ⟨hbody.2, mt List.mem_singleton.1 fun h => hfeed h.symm⟩

theorem madeOf_lines (t : Text) : t.MadeOf (t.lines.map Line.body) := by
  obtain ⟨added, hgo, hmade, -⟩ := goesOn_lines_go t [] [] unbroken_nil
  rw [lines, hgo]
  exact hmade

theorem unbroken_of_mem_lines {t : Text} {l : Line} (h : l ∈ t.lines) : l.body.Unbroken := by
  obtain ⟨added, hgo, -, hadded⟩ := goesOn_lines_go t [] [] unbroken_nil
  rw [lines, hgo] at h
  exact hadded l h

/-! ### Where the lines stand -/

private theorem pairwise_breaksFrom (start : Nat) (t : Text) :
    (breaksFrom start t).Pairwise (· < ·) := by
  induction t generalizing start with
  | nil => exact .nil
  | cons c t ih =>
    rw [breaksFrom]
    split
    · exact .cons (fun i hi => lt_of_mem_breaksFrom hi) (ih _)
    · exact ih _

theorem pairwise_lineStarts (t : Text) : t.lineStarts.Pairwise (· < ·) := by
  rw [lineStarts_eq_breaks]
  exact .cons (fun i hi => lt_of_mem_breaksFrom hi) (pairwise_breaksFrom 0 t)

theorem length_lineStarts (t : Text) : t.lineStarts.length = t.lines.length := by
  rw [lineStarts_eq, length_startsFrom]

/-- Every line stands at its start and goes on to the next one, the last line to the end. -/
theorem exists_line_parts {t : Text} {n : Nat} {l : Line} (hl : t.lines[n]? = some l) :
    ∃ before after, t = before ++ (l.text ++ after) ∧ t.lineStarts[n]? = some before.byteSize ∧
      t.lineStarts[n + 1]?.getD t.byteSize = before.byteSize + l.text.byteSize := by
  obtain ⟨before, after, hlines, rfl⟩ :
      ∃ before after, t.lines = before ++ l :: after ∧ before.length = n := by
    obtain ⟨hn, rfl⟩ := List.getElem?_eq_some_iff.1 hl
    refine ⟨t.lines.take n, t.lines.drop (n + 1), ?_, List.length_take_of_le (Nat.le_of_lt hn)⟩
    rw [← List.drop_eq_getElem_cons hn, List.take_append_drop]
  have htext : t = before.flatMap Line.text ++ (l.text ++ after.flatMap Line.text) := by
    rw [← List.flatMap_cons, ← List.flatMap_append, ← hlines, flatMap_text_lines]
  refine ⟨before.flatMap Line.text, after.flatMap Line.text, htext, ?_, ?_⟩
  · rw [lineStarts_eq, hlines, startsFrom_append, ← length_startsFrom 0 before,
      List.getElem?_append_right (Nat.le_refl _), Nat.sub_self, Nat.zero_add]
    rfl
  · rw [lineStarts_eq, hlines, startsFrom_append, ← length_startsFrom 0 before,
      List.getElem?_append_right (Nat.le_add_right _ 1), Nat.add_sub_cancel_left, Nat.zero_add]
    cases after with
    | nil =>
      rw [List.flatMap_nil, List.append_nil] at htext
      exact (congrArg byteSize htext).trans (byteSize_append ..)
    | cons m after => rfl

/-- What remains of a line without its ending is its body. -/
theorem withoutEnding_text {l : Line} (h : l.body.Unbroken) : l.text.withoutEnding = l.body := by
  have hending : ∀ c ∈ (l.ending.map LineEnding.text).getD [], (c == '\r' || c == '\n') = true := by
    rcases l with ⟨body, _ | ending⟩
    · exact List.forall_mem_nil _
    · cases ending <;> exact List.all_eq_true.1 rfl
  rw [withoutEnding, Line.text, dropEndWhile_append_of_pos hending]
  obtain ⟨dropped, hbody, hdropped⟩ := exists_dropEndWhile (fun c => c == '\r' || c == '\n') l.body
  cases dropped with
  | nil => exact (hbody.trans (List.append_nil _)).symm
  | cons c dropped =>
    have hc : c ∈ l.body := by
      rw [hbody]
      exact List.mem_append_right _ List.mem_cons_self
    have hends := hdropped c List.mem_cons_self
    rw [Bool.or_eq_true, beq_iff_eq, beq_iff_eq] at hends
    rcases hends with rfl | rfl
    · exact absurd hc h.1
    · exact absurd hc h.2

end Text

namespace SourceFile

/-- Between the starts of two lines there is the first of them. -/
theorem line?_succ (f : SourceFile) (n : Nat) :
    f.line? (n + 1) = f.text.lines[n]?.map Line.body := by
  rw [line?, if_neg (Nat.succ_ne_zero n)]
  show (f.text.lineStarts[n]?.bind fun start => (f.text.slice? (f.text.lastBoundary start)
    (f.text.lastBoundary (f.text.lineStarts[n + 1]?.getD f.text.byteSize))).bind fun line =>
      some line.withoutEnding) = _
  cases hl : f.text.lines[n]? with
  | none =>
    have hstart : f.text.lineStarts[n]? = none := by
      rwa [List.getElem?_eq_none_iff, Text.length_lineStarts, ← List.getElem?_eq_none_iff]
    rw [hstart]
    rfl
  | some l =>
    obtain ⟨before, after, htext, hstart, hstop⟩ := Text.exists_line_parts hl
    have hfirst : f.text.IsBoundary before.byteSize := ⟨before, _, htext, rfl⟩
    have hlast : f.text.IsBoundary (before.byteSize + l.text.byteSize) :=
      ⟨before ++ l.text, after, by rw [htext, List.append_assoc], Text.byteSize_append ..⟩
    have hslice : f.text.slice? before.byteSize (before.byteSize + l.text.byteSize) =
        some l.text := by
      rw [htext]
      exact Text.slice?_append _ _ _
    rw [hstart, Option.bind_some, hstop, hfirst.lastBoundary_eq, hlast.lastBoundary_eq, hslice,
      Option.bind_some,
      Text.withoutEnding_text (Text.unbroken_of_mem_lines (List.mem_of_getElem? hl))]
    rfl

theorem lineCount_eq (f : SourceFile) : f.lineCount = f.text.lines.length :=
  f.text.length_lineStarts

theorem isSome_line?_iff (f : SourceFile) (n : Nat) :
    (f.line? n).isSome = true ↔ 1 ≤ n ∧ n ≤ f.lineCount := by
  cases n with
  | zero => exact iff_of_false Bool.false_ne_true (by omega)
  | succ n =>
    rw [line?_succ, Option.isSome_map, Option.isSome_iff_ne_none, ne_eq, List.getElem?_eq_none_iff,
      lineCount_eq]
    omega

/-- The lines of a file partition its text, each of them where its start says. -/
theorem lines_partition (f : SourceFile) :
    f.text.lineStarts.head? = some 0 ∧ f.text.lineStarts.Pairwise (· < ·) ∧
      f.text.lineStarts.length = f.lineCount ∧
      (∀ n, (f.line? n).isSome = true ↔ 1 ≤ n ∧ n ≤ f.lineCount) ∧
      (∀ n line, f.line? n = some line → '\r' ∉ line ∧ '\n' ∉ line) ∧
      (∀ n start line, f.text.lineStarts[n]? = some start → f.line? (n + 1) = some line →
        f.text.slice? start (start + line.byteSize) = some line) ∧
      ∃ lines : List Text, (∀ n, f.line? (n + 1) = lines[n]?) ∧ f.text.MadeOf lines := by
  refine ⟨?_, f.text.pairwise_lineStarts, rfl, f.isSome_line?_iff, ?_, ?_,
    f.text.lines.map Line.body, fun n => ?_, f.text.madeOf_lines⟩
  · rw [Text.lineStarts_eq_breaks]
    rfl
  · intro n line hline
    cases n with
    | zero => cases hline
    | succ n =>
      rw [line?_succ] at hline
      obtain ⟨l, hl, rfl⟩ := Option.map_eq_some_iff.1 hline
      exact Text.unbroken_of_mem_lines (List.mem_of_getElem? hl)
  · intro n start line hstart hline
    rw [line?_succ] at hline
    obtain ⟨l, hl, rfl⟩ := Option.map_eq_some_iff.1 hline
    obtain ⟨before, after, htext, hbefore, -⟩ := Text.exists_line_parts hl
    cases hbefore.symm.trans hstart
    rw [htext, Line.text, List.append_assoc]
    exact Text.slice?_append _ _ _
  · rw [line?_succ, List.getElem?_map]

end SourceFile

/-- A file with one ending of each kind and an empty last line. -/
def Sample.mixedEndings : SourceFile := ⟨0, "a.sol", ['é', '\r', 'a', '\r', '\n', '\n']⟩

/-- The second line stands behind a lone carriage return and before a pair. -/
theorem SourceFile.lines_partition_sample :
    Sample.mixedEndings.lineCount = 4 ∧ Sample.mixedEndings.line? 2 = some ['a'] ∧
      Sample.mixedEndings.text.lineStarts[1]? = some 3 ∧ ('\r' ∉ ['a'] ∧ '\n' ∉ ['a']) ∧
      Sample.mixedEndings.text.slice? 3 4 = some ['a'] := by
  have hline : Sample.mixedEndings.line? 2 = some ['a'] := by decide
  have hstart : Sample.mixedEndings.text.lineStarts[1]? = some 3 := by decide
  obtain ⟨-, -, -, -, hplain, hplace, -⟩ := SourceFile.lines_partition Sample.mixedEndings
  exact ⟨by decide, hline, hstart, hplain 2 _ hline, hplace 1 3 _ hstart hline⟩

end ContractAtlas
