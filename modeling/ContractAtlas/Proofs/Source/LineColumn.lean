import ContractAtlas.Proofs.Source.Partition
import Mathlib.Data.List.TakeWhile
import Mathlib.Data.Prod.Lex
import Mathlib.Order.Bounds.Basic

/-! Lines and columns of byte offsets. The line of an offset counts the line starts up to it, and
its column leads back to the last character boundary up to it. So the boundaries stand in the order
of their places, except that in a file of the largest size that is one line of one-byte characters
the column at the end is out of range for a word. -/
namespace ContractAtlas

namespace Text

/-! ### The last boundary up to an offset -/

theorem boundary?_eq_some_iff {t : Text} {offset count : Nat} :
    t.boundary? offset = some count ↔ count ≤ t.length ∧ byteSize (t.take count) = offset := by
  constructor
  · intro h
    obtain ⟨before, after, rfl, rfl⟩ := isSome_boundary?.1 (Option.isSome_of_eq_some h)
    cases (boundary?_append before after).symm.trans h
    exact ⟨by rw [List.length_append]; omega, by rw [List.take_left]⟩
  · rintro ⟨hcount, rfl⟩
    have h := boundary?_append (t.take count) (t.drop count)
    rwa [List.take_append_drop, List.length_take_of_le hcount] at h

theorem byteSize_take_lt {t : Text} {i j : Nat} (hij : i < j) (hj : j ≤ t.length) :
    byteSize (t.take i) < byteSize (t.take j) := by
  obtain ⟨n, rfl⟩ := Nat.exists_eq_add_of_le (Nat.le_of_lt hij)
  rw [List.take_add, byteSize_append]
  refine Nat.lt_add_of_pos_right (Nat.pos_of_ne_zero fun hzero => ?_)
  have hlength := congrArg List.length (eq_nil_of_byteSize hzero)
  rw [List.length_take, List.length_drop, List.length_nil] at hlength
  omega

/-- Boundaries come in the order in which characters do. -/
theorem boundary?_lt_iff {t : Text} {b c i j : Nat} (hb : t.boundary? b = some i)
    (hc : t.boundary? c = some j) :
    b < c ↔ i < j := by
  obtain ⟨hi, rfl⟩ := boundary?_eq_some_iff.1 hb
  obtain ⟨hj, rfl⟩ := boundary?_eq_some_iff.1 hc
  refine ⟨fun hlt => Nat.lt_of_not_le fun hle => ?_, fun hlt => byteSize_take_lt hlt hj⟩
  rcases Nat.eq_or_lt_of_le hle with rfl | hji
  · exact Nat.lt_irrefl _ hlt
  · exact Nat.lt_asymm hlt (byteSize_take_lt hji hi)

theorem boundary?_zero (t : Text) : t.boundary? 0 = some 0 := boundary?_append [] t

/-- The greatest boundary that is not behind an offset. -/
def IsLastBoundary (t : Text) (offset stop : Nat) : Prop :=
  IsGreatest {i | t.IsBoundary i ∧ i ≤ offset} stop

theorem IsBoundary.isLastBoundary {t : Text} {offset : Nat} (h : t.IsBoundary offset) :
    t.IsLastBoundary offset offset :=
  ⟨⟨h, Nat.le_refl offset⟩, fun _ hi => hi.2⟩

private theorem isLastBoundary_back (t : Text) (offset : Nat) :
    t.IsLastBoundary offset (lastBoundary.back t offset) := by
  induction offset with
  | zero => exact t.isBoundary_zero.isLastBoundary
  | succ offset ih =>
    rw [lastBoundary.back]
    split
    · rename_i h
      exact (isSome_boundary?.1 h).isLastBoundary
    · rename_i h
      refine ⟨⟨ih.1.1, Nat.le_succ_of_le ih.1.2⟩, ?_⟩
      rintro i ⟨hi, hle⟩
      rcases Nat.eq_or_lt_of_le hle with rfl | hlt
      · exact absurd (isSome_boundary?.2 hi) h
      · exact ih.2 ⟨hi, Nat.le_of_lt_succ hlt⟩

theorem isLastBoundary_lastBoundary (t : Text) (offset : Nat) :
    t.IsLastBoundary offset (t.lastBoundary offset) := by
  rw [lastBoundary]
  split
  · rename_i hend
    exact ⟨⟨⟨t, [], (List.append_nil t).symm, rfl⟩, hend⟩, fun _ hi => hi.1.le_byteSize⟩
  · exact t.isLastBoundary_back offset

/-- The offset behind the next `count` characters from the boundary `start` on. -/
def advance? (t : Text) (start count : Nat) : Option Nat :=
  (t.boundary? start).bind fun before =>
    if before + count ≤ t.length then some (byteSize (t.take (before + count))) else none

theorem advance?_eq_some_iff {t : Text} {start count stop : Nat} :
    t.advance? start count = some stop ↔
      ∃ before, t.boundary? start = some before ∧ t.boundary? stop = some (before + count) := by
  simp only [advance?, Option.bind_eq_some_iff, Option.ite_none_right_eq_some, Option.some.injEq,
    @boundary?_eq_some_iff t stop]

/-! ### The line start before an offset -/

theorem isBoundary_of_mem_lineStarts {t : Text} {start : Nat} (h : start ∈ t.lineStarts) :
    t.IsBoundary start := by
  obtain ⟨n, hn, rfl⟩ := List.getElem_of_mem h
  have hline : n < t.lines.length := t.length_lineStarts ▸ hn
  obtain ⟨before, after, ht, hstart, -⟩ := exists_line_parts (List.getElem?_eq_getElem hline)
  rw [List.getElem?_eq_getElem hn, Option.some.injEq] at hstart
  exact ⟨before, _, ht, hstart.symm⟩

private theorem length_takeWhile_le {starts : List Nat} (h : starts.Pairwise (· < ·))
    (bound : Nat) :
    (starts.takeWhile (· ≤ bound)).length = starts.countP (· ≤ bound) := by
  induction h with
  | nil => rfl
  | @cons start starts hfirst _ ih =>
    rw [List.takeWhile_cons, List.countP_cons]
    by_cases hle : start ≤ bound
    · simp [hle, ih]
    · have hnone : starts.countP (· ≤ bound) = 0 := List.countP_eq_zero.2 fun i hi => by
        have := hfirst i hi
        simp only [decide_eq_true_eq]
        omega
      simp [hle, hnone]

/-- The lines that start up to an offset; the last of them is the line of the offset. -/
theorem lineStarts_takeWhile (t : Text) (bound : Nat) :
    (t.lineStarts.takeWhile (· ≤ bound)).length = t.lineStarts.countP (· ≤ bound) ∧
      1 ≤ t.lineStarts.countP (· ≤ bound) ∧
      ∃ start, t.lineStarts[t.lineStarts.countP (· ≤ bound) - 1]? = some start ∧ start ≤ bound := by
  have hlength := length_takeWhile_le t.pairwise_lineStarts bound
  have hpos : 0 < t.lineStarts.countP (· ≤ bound) :=
    List.countP_pos_iff.2 ⟨0, by rw [lineStarts_eq_breaks]; exact List.mem_cons_self, by simp⟩
  have hlast : (t.lineStarts.takeWhile (· ≤ bound)).getLast? =
      t.lineStarts[t.lineStarts.countP (· ≤ bound) - 1]? := by
    rw [List.getLast?_eq_getElem?, hlength, List.prefix_iff_eq_take.1 (List.takeWhile_prefix _),
      hlength, List.getElem?_take_of_lt (by omega)]
  have hne := List.ne_nil_of_length_pos (hlength ▸ hpos)
  refine ⟨hlength, hpos, _, hlast.symm.trans (List.getLast?_eq_some_getLast hne), ?_⟩
  have hle := List.mem_takeWhile_imp (List.getLast_mem hne)
  exact of_decide_eq_true hle

/-- Only the first line starts with the text. -/
theorem eq_one_of_lineStarts_eq_zero {t : Text} {n : Nat} (hn : 1 ≤ n)
    (h : t.lineStarts[n - 1]? = some 0) : n = 1 := by
  obtain ⟨i, rfl⟩ := Nat.exists_eq_add_of_le' hn
  rw [Nat.add_sub_cancel, lineStarts_eq_breaks] at h
  cases i with
  | zero => rfl
  | succ i => exact absurd (lt_of_mem_breaksFrom (List.mem_of_getElem? h)) (Nat.lt_irrefl 0)

/-! ### Where an offset stands -/

/-- The offset stands on the line with this number, which starts at `start`, behind `chars`
characters of it. -/
structure StandsAt (t : Text) (offset line start chars : Nat) : Prop where
  counts : line = t.lineStarts.countP (· ≤ offset)
  pos : 1 ≤ line
  begins : t.lineStarts[line - 1]? = some start
  advance : t.advance? start chars = some (t.lastBoundary offset)

theorem exists_standsAt (t : Text) (offset : Nat) :
    ∃ line start chars, t.StandsAt offset line start chars := by
  obtain ⟨-, hpos, start, hstart, hle⟩ := t.lineStarts_takeWhile offset
  have hbound := isBoundary_of_mem_lineStarts (List.mem_of_getElem? hstart)
  have hlast := t.isLastBoundary_lastBoundary offset
  obtain ⟨before, hbefore⟩ := Option.isSome_iff_exists.1 (isSome_boundary?.2 hbound)
  obtain ⟨upto, hupto⟩ := Option.isSome_iff_exists.1 (isSome_boundary?.2 hlast.1.1)
  have hstarts : start ≤ t.lastBoundary offset := hlast.2 ⟨hbound, hle⟩
  have horder : before ≤ upto := Nat.le_of_not_lt fun hlt =>
    Nat.not_lt.2 hstarts ((boundary?_lt_iff hupto hbefore).2 hlt)
  refine ⟨_, start, upto - before, rfl, hpos, hstart, advance?_eq_some_iff.2 ⟨before, hbefore, ?_⟩⟩
  rw [hupto, Nat.add_sub_cancel' horder]

/-- The characters of the line before the offset. -/
theorem StandsAt.exists_slice? {t : Text} {offset line start chars : Nat}
    (h : t.StandsAt offset line start chars) :
    ∃ before, t.slice? start (t.lastBoundary offset) = some before ∧ before.length = chars := by
  obtain ⟨i, hi, hj⟩ := advance?_eq_some_iff.1 h.advance
  have hle : start ≤ t.lastBoundary offset := Nat.le_of_not_lt fun hlt => by
    have := (boundary?_lt_iff hj hi).1 hlt
    omega
  refine ⟨(t.drop i).take chars, ?_, ?_⟩
  · rw [slice?, if_pos hle, hi, hj]
    show some ((t.drop i).take (i + chars - i)) = _
    rw [Nat.add_sub_cancel_left]
  · have hlength := (boundary?_eq_some_iff.1 hj).1
    rw [List.length_take, List.length_drop]
    omega

/-- A later boundary stands on a later line, or behind more characters of the same one. -/
theorem StandsAt.lt {t : Text} {b c line start chars line' start' chars' : Nat}
    (h : t.StandsAt b line start chars) (h' : t.StandsAt c line' start' chars')
    (hb : t.IsBoundary b) (hc : t.IsBoundary c) (hlt : b < c) :
    line < line' ∨ line = line' ∧ chars < chars' := by
  have hlines : line ≤ line' := by
    rw [h.counts, h'.counts]
    refine List.countP_mono_left fun i _ hi => ?_
    rw [decide_eq_true_eq] at hi ⊢
    omega
  rcases Nat.eq_or_lt_of_le hlines with rfl | hlines
  · -- On one line the characters are counted from the same start.
    cases h.begins.symm.trans h'.begins
    obtain ⟨i, hi, hj⟩ := advance?_eq_some_iff.1 h.advance
    obtain ⟨i', hi', hj'⟩ := advance?_eq_some_iff.1 h'.advance
    cases hi.symm.trans hi'
    rw [hb.lastBoundary_eq] at hj
    rw [hc.lastBoundary_eq] at hj'
    have hchars := (boundary?_lt_iff hj hj').1 hlt
    exact .inr ⟨rfl, by omega⟩
  · exact .inl hlines

end Text

namespace SourceFile
variable {f : SourceFile} {byte line start chars : Nat}

/-- Line and column, as long as there are any: both are words. -/
theorem lineColumn?_eq (h : f.text.StandsAt byte line start chars)
    (hbyte : byte ≤ f.text.byteSize) :
    f.lineColumn? byte = some (line % UInt32.size, (chars + 1) % UInt32.size) := by
  obtain ⟨before, hslice, rfl⟩ := h.exists_slice?
  obtain ⟨hlength, -⟩ := f.text.lineStarts_takeWhile byte
  rw [← h.counts] at hlength
  rw [lineColumn?, if_neg (Nat.not_lt.2 hbyte)]
  dsimp only
  rw [hlength, h.begins, Nat.sub_add_cancel h.pos]
  show ((f.text.slice? start (f.text.lastBoundary byte)).bind fun before =>
    some (line % UInt32.size, (before.length + 1) % UInt32.size)) = _
  rw [hslice, Option.bind_some]

theorem isSome_lineColumn?_iff (f : SourceFile) (byte : Nat) :
    (f.lineColumn? byte).isSome = true ↔ byte ≤ f.text.byteSize := by
  obtain ⟨line, start, chars, h⟩ := f.text.exists_standsAt byte
  constructor
  · intro hsome
    refine Nat.le_of_not_lt fun hlt => ?_
    rw [lineColumn?, if_pos hlt] at hsome
    cases hsome
  · intro hbyte
    rw [lineColumn?_eq h hbyte]
    rfl

/-- The file has the largest size and is a single line of one-byte characters. -/
def IsFullLine (f : SourceFile) : Prop := f.text.length = maxBytes ∧ f.lineCount = 1

/-- All characters that a file can have stand before an offset only at the end of such a file. -/
theorem chars_eq_maxBytes_iff (haccepted : refusal? f.text = none) (hbyte : byte ≤ f.text.byteSize)
    (h : f.text.StandsAt byte line start chars) :
    chars = maxBytes ↔ byte = maxBytes ∧ f.IsFullLine := by
  have hsize : f.text.byteSize ≤ maxBytes := Nat.le_of_lt_succ (byteSize_lt haccepted)
  have hlength := f.text.length_le_byteSize
  obtain ⟨i, hi, hj⟩ := Text.advance?_eq_some_iff.1 h.advance
  obtain ⟨hupto, hstop⟩ := Text.boundary?_eq_some_iff.1 hj
  constructor
  · intro hchars
    obtain rfl : i = 0 := by omega
    rw [List.take_of_length_le (by omega)] at hstop
    have hlast := (f.text.isLastBoundary_lastBoundary byte).1.2
    obtain ⟨-, rfl⟩ := Text.boundary?_eq_some_iff.1 hi
    refine ⟨by omega, by omega, ?_⟩
    -- All lines start up to the end, and the line of the end is the first one.
    have hall : f.text.lineStarts.countP (· ≤ byte) = f.lineCount :=
      List.countP_eq_length.2 fun i hi => decide_eq_true (by
        have := (Text.isBoundary_of_mem_lineStarts hi).le_byteSize
        omega)
    rw [← hall, ← h.counts]
    exact Text.eq_one_of_lineStarts_eq_zero h.pos h.begins
  · rintro ⟨rfl, hfull, hcount⟩
    have hfirst : line = 1 := by
      have hle : f.text.lineStarts.countP (· ≤ maxBytes) ≤ f.lineCount := List.countP_le_length
      have := h.counts
      have := h.pos
      omega
    have hstart : start = 0 := by
      have hstart := h.begins
      rw [hfirst, Text.lineStarts_eq_breaks] at hstart
      exact (Option.some.inj hstart).symm
    have hend : f.text.lastBoundary maxBytes = f.text.byteSize := if_pos hsize
    have hwhole : f.text.boundary? f.text.byteSize = some f.text.length :=
      Text.boundary?_eq_some_iff.2 ⟨Nat.le_refl _, by rw [List.take_length]⟩
    rw [hstart, Text.boundary?_zero, Option.some.injEq] at hi
    rw [hend, hwhole, Option.some.injEq] at hj
    omega

/-- In an accepted file the line fits into a word, and so does the column but at one place. -/
theorem lineColumn?_of_accepted (haccepted : refusal? f.text = none)
    (hbyte : byte ≤ f.text.byteSize) (h : f.text.StandsAt byte line start chars) :
    f.lineColumn? byte = some (line, if chars = maxBytes then 0 else chars + 1) := by
  have hsize := byteSize_lt haccepted
  have hlength := f.text.length_le_byteSize
  obtain ⟨i, -, hj⟩ := Text.advance?_eq_some_iff.1 h.advance
  have hupto := (Text.boundary?_eq_some_iff.1 hj).1
  have hlines : line ≤ maxLines := by
    rw [h.counts]
    exact List.countP_le_length.trans (f.text.length_lineStarts ▸ length_lines_le haccepted)
  have hmax : maxBytes + 1 = UInt32.size ∧ maxLines < UInt32.size := by decide
  rw [lineColumn?_eq h hbyte, Nat.mod_eq_of_lt (by omega)]
  split
  · rename_i hchars
    rw [hchars, hmax.1, Nat.mod_self]
  · rw [Nat.mod_eq_of_lt (by omega)]

/-- The line of an offset is the one that the offset stands on. -/
theorem exists_lineColumn? (haccepted : refusal? f.text = none) (hbyte : byte ≤ f.text.byteSize)
    {before after : List Line} {l : Line} (hat : f.text.LineAt byte before l after) :
    ∃ column, f.lineColumn? byte = some (before.length + 1, column) := by
  obtain ⟨line, start, chars, h⟩ := f.text.exists_standsAt byte
  obtain ⟨hlength, -⟩ := f.text.lineStarts_takeWhile byte
  rw [← hat.length_takeWhile, hlength, ← h.counts]
  exact ⟨_, lineColumn?_of_accepted haccepted hbyte h⟩

/-- Unless the file is full, its boundaries stand in the order of their places. -/
theorem lineColumn?_lt_iff (haccepted : refusal? f.text = none) (hfull : ¬ f.IsFullLine) {b c : Nat}
    (hb : f.text.IsBoundary b) (hc : f.text.IsBoundary c) :
    ∃ p q, f.lineColumn? b = some p ∧ f.lineColumn? c = some q ∧ (b < c ↔ toLex p < toLex q) := by
  obtain ⟨line, start, chars, h⟩ := f.text.exists_standsAt b
  obtain ⟨line', start', chars', h'⟩ := f.text.exists_standsAt c
  have hplace := lineColumn?_of_accepted haccepted hb.le_byteSize h
  have hplace' := lineColumn?_of_accepted haccepted hc.le_byteSize h'
  rw [if_neg fun hchars => hfull ((chars_eq_maxBytes_iff haccepted hb.le_byteSize h).1 hchars).2]
    at hplace
  rw [if_neg fun hchars => hfull ((chars_eq_maxBytes_iff haccepted hc.le_byteSize h').1 hchars).2]
    at hplace'
  refine ⟨_, _, hplace, hplace', ?_⟩
  rw [Prod.Lex.toLex_lt_toLex]
  dsimp only
  constructor
  · intro hlt
    have := h.lt h' hb hc hlt
    omega
  · intro hlt
    refine Nat.lt_of_not_le fun hle => ?_
    rcases Nat.eq_or_lt_of_le hle with rfl | hcb
    · cases hplace.symm.trans hplace'
      omega
    · have := h'.lt h hc hb hcb
      omega

/-- The places of offsets in an accepted file. An offset has one if it is within the file or at its
end. Its line counts the line starts up to it, and from the start of this line the characters before
its column lead to the last boundary up to it, but for the end of a file of the largest size that is
a single line of one-byte characters. In all files but these, boundaries stand in the order of their
places. -/
theorem lineColumn?_embeds_iff (haccepted : refusal? f.text = none) :
    (∀ byte, (f.lineColumn? byte).isSome = true ↔ byte ≤ f.text.byteSize) ∧
    (∀ byte line column, f.lineColumn? byte = some (line, column) →
      line = f.text.lineStarts.countP (· ≤ byte) ∧ 1 ≤ line ∧
      ((1 ≤ column ∧ ∃ start stop, f.text.lineStarts[line - 1]? = some start ∧
          f.text.advance? start (column - 1) = some stop ∧ f.text.IsLastBoundary byte stop) ↔
        ¬ (byte = maxBytes ∧ f.IsFullLine))) ∧
    ((∀ b c, f.text.IsBoundary b → f.text.IsBoundary c →
        ∃ p q, f.lineColumn? b = some p ∧ f.lineColumn? c = some q ∧
          (b < c ↔ toLex p < toLex q)) ↔
      ¬ f.IsFullLine) := by
  refine ⟨f.isSome_lineColumn?_iff, fun byte line column hplace => ?_, fun horder hfull => ?_,
    fun hfull b c => lineColumn?_lt_iff haccepted hfull⟩
  · have hbyte := (f.isSome_lineColumn?_iff byte).1 (Option.isSome_of_eq_some hplace)
    obtain ⟨line, start, chars, h⟩ := f.text.exists_standsAt byte
    rw [lineColumn?_of_accepted haccepted hbyte h] at hplace
    cases hplace
    refine ⟨h.counts, h.pos, ?_⟩
    rw [← chars_eq_maxBytes_iff haccepted hbyte h]
    by_cases hchars : chars = maxBytes
    · rw [if_pos hchars]
      exact iff_of_false (fun hcolumn => absurd hcolumn.1 (by decide)) (not_not_intro hchars)
    · rw [if_neg hchars]
      exact iff_of_true ⟨Nat.le_add_left .., start, _, h.begins, h.advance,
        f.text.isLastBoundary_lastBoundary byte⟩ hchars
  · -- In a full file the end has column zero, before the first place of all.
    have hsize : f.text.byteSize = maxBytes :=
      Nat.le_antisymm (Nat.le_of_lt_succ (byteSize_lt haccepted))
        (hfull.1 ▸ f.text.length_le_byteSize)
    have hend : f.text.IsBoundary maxBytes := ⟨f.text, [], (List.append_nil _).symm, hsize⟩
    obtain ⟨p, q, hp, hq, hlt⟩ := horder 0 maxBytes f.text.isBoundary_zero hend
    obtain ⟨line, start, chars, h⟩ := f.text.exists_standsAt maxBytes
    have hchars := (chars_eq_maxBytes_iff haccepted (Nat.le_of_eq hsize.symm) h).2 ⟨rfl, hfull⟩
    rw [lineColumn?_of_accepted haccepted (Nat.le_of_eq hsize.symm) h, if_pos hchars] at hq
    obtain ⟨line', start', chars', h'⟩ := f.text.exists_standsAt 0
    rw [lineColumn?_of_accepted haccepted (Nat.zero_le _) h'] at hp
    cases hp
    cases hq
    have hlex := hlt.1 (by decide)
    rw [Prod.Lex.toLex_lt_toLex] at hlex
    have hlines : line ≤ f.lineCount := h.counts ▸ List.countP_le_length
    have hcount := hfull.2
    have hpos := h'.pos
    rcases hlex with hlex | ⟨-, hlex⟩
    · dsimp only at hlex
      omega
    · exact absurd hlex (Nat.not_lt_zero _)

/-- An offset within the first character has the place of that character, and the places of the two
characters of an ending are in order. -/
theorem lineColumn?_embeds_iff_sample :
    refusal? Sample.mixedEndings.text = none ∧ ¬ Sample.mixedEndings.IsFullLine ∧
      Sample.mixedEndings.lineColumn? 1 = some (1, 1) ∧
      (∃ start stop, Sample.mixedEndings.text.lineStarts[0]? = some start ∧
        Sample.mixedEndings.text.advance? start 0 = some stop ∧
        Sample.mixedEndings.text.IsLastBoundary 1 stop) ∧
      ∃ p q, Sample.mixedEndings.lineColumn? 4 = some p ∧
        Sample.mixedEndings.lineColumn? 5 = some q ∧
        (4 < 5 ↔ toLex p < toLex q) := by
  have haccepted : refusal? Sample.mixedEndings.text = none := by decide
  have hopen : ¬ Sample.mixedEndings.IsFullLine := fun h => absurd h.2 (by decide)
  have hfirst : Sample.mixedEndings.lineColumn? 1 = some (1, 1) := by decide
  obtain ⟨-, hplace, horder⟩ := lineColumn?_embeds_iff haccepted
  obtain ⟨-, -, hcolumn⟩ := hplace 1 1 1 hfirst
  obtain ⟨-, hstop⟩ := hcolumn.2 fun h => hopen h.2
  exact ⟨haccepted, hopen, hfirst, hstop, horder.2 hopen 4 5 (by decide) (by decide)⟩

end SourceFile

/-! ### Runs of one character -/

theorem Text.lineStarts_replicate {c : Char} (hreturn : c ≠ '\r') (hfeed : c ≠ '\n') (count : Nat) :
    lineStarts (List.replicate count c) = [0] := by
  have hbreaks : ∀ start, breaksFrom start (List.replicate count c) = [] := by
    induction count with
    | zero => exact fun _ => rfl
    | succ count ih =>
      intro start
      have hopen : ¬ EndsLine c (List.replicate count c) :=
        fun h => h.elim hfeed fun h => hreturn h.1
      rw [List.replicate_succ, breaksFrom, if_neg hopen, ih, List.nil_append]
  rw [lineStarts_eq_breaks, hbreaks]

namespace SourceFile

/-- In a run of one character the places are told by division. -/
theorem lineColumn?_replicate {c : Char} (hreturn : c ≠ '\r') (hfeed : c ≠ '\n') (id : Nat)
    (path : String) (count byte : Nat) :
    lineColumn? ⟨id, path, List.replicate count c⟩ byte = lineColumnOfRun? c count byte := by
  have hc := c.utf8Size_pos
  have hsize := Text.byteSize_replicate count c
  have hstarts := Text.lineStarts_replicate hreturn hfeed count
  rw [lineColumnOfRun?]
  split
  · rename_i hlt
    rw [lineColumn?, if_pos (hsize ▸ hlt)]
  · rename_i hbyte
    obtain ⟨line, start, chars, h⟩ := Text.exists_standsAt (List.replicate count c) byte
    obtain rfl : line = 1 := by
      rw [h.counts, hstarts]
      simp
    obtain rfl : start = 0 := by
      have hbegins := h.begins
      rw [hstarts] at hbegins
      exact (Option.some.inj hbegins).symm
    obtain ⟨i, hi, hj⟩ := Text.advance?_eq_some_iff.1 h.advance
    cases hi.symm.trans (Text.boundary?_zero _)
    obtain ⟨hcount, hlast⟩ := Text.boundary?_eq_some_iff.1 hj
    rw [List.length_replicate] at hcount
    rw [List.take_replicate, Nat.min_eq_left hcount, Text.byteSize_replicate, Nat.zero_add] at hlast
    obtain ⟨⟨-, hle⟩, hgreatest⟩ := Text.isLastBoundary_lastBoundary (List.replicate count c) byte
    have hquotient : byte / c.utf8Size ≤ count :=
      Nat.div_le_of_le_mul (by rw [Nat.mul_comm]; exact Nat.not_lt.1 hbyte)
    have hbefore : Text.IsBoundary (List.replicate count c) (byte / c.utf8Size * c.utf8Size) := by
      refine ⟨List.replicate (byte / c.utf8Size) c,
        List.replicate (count - byte / c.utf8Size) c, ?_, Text.byteSize_replicate _ c⟩
      rw [List.replicate_append_replicate, Nat.add_sub_cancel' hquotient]
    have hdivides := hgreatest ⟨hbefore, Nat.div_mul_le_self ..⟩
    rw [← hlast] at hle hdivides
    obtain rfl : chars = byte / c.utf8Size :=
      Nat.le_antisymm ((Nat.le_div_iff_mul_le hc).2 hle) (Nat.le_of_mul_le_mul_right hdivides hc)
    exact lineColumn?_eq (f := ⟨id, path, _⟩) h (hsize ▸ Nat.not_lt.1 hbyte)

end SourceFile

/-- A file of the largest size, a single line of one letter. -/
def Sample.fullLine : SourceFile := ⟨0, "a.sol", List.replicate SourceFile.maxBytes 'x'⟩

/-- The end of such a file has column zero, and the letter before it the greatest column of all. -/
theorem SourceFile.column_overflows :
    refusal? Sample.fullLine.text = none ∧ Sample.fullLine.text.IsBoundary maxBytes ∧
      Sample.fullLine.lineColumn? (maxBytes - 1) = some (1, maxBytes) ∧
      Sample.fullLine.lineColumn? maxBytes = some (1, 0) := by
  have hsize : Sample.fullLine.text.byteSize = maxBytes := Text.byteSize_replicate maxBytes 'x'
  have hlines : Sample.fullLine.text.lines.length = 1 := by
    rw [← Text.length_lineStarts]
    exact congrArg List.length (Text.lineStarts_replicate (by decide) (by decide) maxBytes)
  have hplace := lineColumn?_replicate (c := 'x') (by decide) (by decide) 0 "a.sol" maxBytes
  refine ⟨?_, ⟨_, [], (List.append_nil _).symm, hsize⟩, ?_, ?_⟩
  · rw [← Option.not_isSome_iff_eq_none, isSome_refusal?_iff, OverLimit, hsize, hlines]
    decide
  · exact (hplace (maxBytes - 1)).trans (by decide)
  · exact (hplace maxBytes).trans (by decide)

end ContractAtlas
