import ContractAtlas.Proofs.Source.Limit
import ContractAtlas.Proofs.Text.Position

/-! Lines and rows. Lines end at line feeds, at carriage returns and at pairs of both; rows end at
line feeds only. So the line of a byte exceeds its row by the carriage returns before it that stand
alone. -/
namespace ContractAtlas

namespace Text

/-! ### Line endings -/

/-- A line ends behind `c` if `t` follows. Of a pair, the line feed ends the line. -/
def EndsLine (c : Char) (t : Text) : Prop := c = '\n' ∨ c = '\r' ∧ t.head? ≠ some '\n'

instance (c : Char) (t : Text) : Decidable (EndsLine c t) := inferInstanceAs (Decidable (_ ∨ _))

/-- The offsets behind the line endings of a text that starts at `start`. -/
def breaksFrom : Nat → Text → List Nat
  | _, [] => []
  | start, c :: t =>
    (if EndsLine c t then [start + c.utf8Size] else []) ++ breaksFrom (start + c.utf8Size) t

/-- The first line starts with the text, every other one behind a line ending. -/
theorem lineStarts_eq_breaks (t : Text) : t.lineStarts = 0 :: breaksFrom 0 t := by
  have hreturn : '\r'.utf8Size = 1 := rfl
  have hfeed : '\n'.utf8Size = 1 := rfl
  have hgo : ∀ t offset starts, lineStarts.go t offset starts =
      starts.reverse ++ breaksFrom offset t := by
    intro t offset starts
    fun_induction lineStarts.go t offset starts with
    | case1 offset starts => rw [breaksFrom, List.append_nil]
    | case2 t offset starts ih => simp [ih, breaksFrom, EndsLine, hreturn, hfeed]
    | case3 t offset starts ht ih =>
      have hhead : t.head? ≠ some '\n' := fun h => by
        obtain ⟨rest, rfl⟩ := List.head?_eq_some_iff.1 h
        exact ht rest rfl
      simp [ih, breaksFrom, EndsLine, hhead, hreturn]
    | case4 t offset starts ih => simp [ih, breaksFrom, EndsLine, hfeed]
    | case5 c t offset starts _ hreturn hfeed ih =>
      have hopen : ¬ EndsLine c t := fun h => h.elim hfeed fun h => hreturn h.1
      rw [ih, breaksFrom, if_neg hopen, List.nil_append]
  exact hgo t 0 [0]

theorem lt_of_mem_breaksFrom {start i : Nat} {t : Text} (h : i ∈ breaksFrom start t) :
    start < i := by
  induction t generalizing start with
  | nil => cases h
  | cons c t ih =>
    have hc := c.utf8Size_pos
    rcases List.mem_append.1 h with h | h
    · split at h
      · cases List.mem_singleton.1 h
        omega
      · cases h
    · have := ih h
      omega

theorem takeWhile_breaksFrom_eq_nil {start bound : Nat} (h : bound ≤ start) (t : Text) :
    (breaksFrom start t).takeWhile (· ≤ bound) = [] := by
  cases hbreaks : breaksFrom start t with
  | nil => rfl
  | cons i rest =>
    have hi : start < i := lt_of_mem_breaksFrom (hbreaks ▸ List.mem_cons_self)
    rw [List.takeWhile_cons, if_neg (by simp; omega)]

/-! ### Where lines start -/

/-- Where each of the lines starts, if the first one starts at `start`. -/
def startsFrom : Nat → List Line → List Nat
  | _, [] => []
  | start, l :: ls => start :: startsFrom (start + l.text.byteSize) ls

theorem length_startsFrom (start : Nat) (ls : List Line) :
    (startsFrom start ls).length = ls.length := by
  induction ls generalizing start with
  | nil => rfl
  | cons l ls ih => rw [startsFrom, List.length_cons, List.length_cons, ih]

theorem startsFrom_append (start : Nat) (ls ms : List Line) :
    startsFrom start (ls ++ ms) =
      startsFrom start ls ++ startsFrom (start + byteSize (ls.flatMap Line.text)) ms := by
  induction ls generalizing start with
  | nil => rfl
  | cons l ls ih =>
    rw [List.cons_append, startsFrom, startsFrom, ih, List.flatMap_cons, byteSize_append,
      Nat.add_assoc, List.cons_append]

private theorem startsFrom_lines_go (t body : Text) (done : List Line) :
    startsFrom 0 (lines.go t body done) = startsFrom 0 done.reverse ++
      byteSize (done.reverse.flatMap Line.text) ::
        breaksFrom (byteSize (done.reverse.flatMap Line.text) + byteSize body.reverse) t := by
  have hreturn : '\r'.utf8Size = 1 := rfl
  have hfeed : '\n'.utf8Size = 1 := rfl
  fun_induction lines.go t body done with
  | case1 body done => simp [startsFrom_append, startsFrom, breaksFrom]
  | case2 t body done ih =>
    rw [ih]
    simp [startsFrom_append, startsFrom, breaksFrom, EndsLine, Line.text, LineEnding.text, hreturn,
      hfeed, Nat.add_assoc]
  | case3 t body done ht ih =>
    have hhead : t.head? ≠ some '\n' := fun h => by
      obtain ⟨rest, rfl⟩ := List.head?_eq_some_iff.1 h
      exact ht rest rfl
    rw [ih]
    simp [startsFrom_append, startsFrom, breaksFrom, EndsLine, hhead, Line.text, LineEnding.text,
      hreturn, Nat.add_assoc]
  | case4 t body done ih =>
    rw [ih]
    simp [startsFrom_append, startsFrom, breaksFrom, EndsLine, Line.text, LineEnding.text, hfeed,
      Nat.add_assoc]
  | case5 c t body done _ hreturn' hfeed' ih =>
    have hopen : ¬ EndsLine c t := fun h => h.elim hfeed' fun h => hreturn' h.1
    rw [ih]
    simp [breaksFrom, hopen, Nat.add_assoc]

/-- The scanner finds the starts of the lines. -/
theorem lineStarts_eq (t : Text) : t.lineStarts = startsFrom 0 t.lines :=
  t.lineStarts_eq_breaks.trans (startsFrom_lines_go t [] []).symm

theorem le_of_mem_startsFrom {start i : Nat} {ls : List Line} (h : i ∈ startsFrom start ls) :
    i ≤ start + byteSize (ls.flatMap Line.text) := by
  induction ls generalizing start with
  | nil => cases h
  | cons l ls ih =>
    rw [List.flatMap_cons, byteSize_append, ← Nat.add_assoc]
    rcases List.mem_cons.1 h with rfl | h
    · omega
    · exact ih h

/-- The byte at `offset` stands on the line `l`, between `before` and `after`. What is behind the
end of the text counts to the last line. -/
structure LineAt (t : Text) (offset : Nat) (before : List Line) (l : Line) (after : List Line) :
    Prop where
  lines : t.lines = before ++ l :: after
  start : byteSize (before.flatMap Line.text) ≤ offset
  stop : after ≠ [] → offset < byteSize ((before ++ [l]).flatMap Line.text)

private theorem exists_split {ls : List Line} (hls : ls ≠ []) {start offset : Nat}
    (hstart : start ≤ offset) :
    ∃ before l after, ls = before ++ l :: after ∧
      start + byteSize (before.flatMap Line.text) ≤ offset ∧
      (after ≠ [] → offset < start + byteSize ((before ++ [l]).flatMap Line.text)) := by
  induction ls generalizing start with
  | nil => exact absurd rfl hls
  | cons l ls ih =>
    by_cases hlast : ls = []
    · exact ⟨[], l, ls, rfl, hstart, fun h => absurd hlast h⟩
    · by_cases hlt : offset < start + l.text.byteSize
      · exact ⟨[], l, ls, rfl, hstart, fun _ => by simpa using hlt⟩
      · obtain ⟨before, m, after, rfl, hbefore, hstop⟩ := ih hlast (Nat.not_lt.1 hlt)
        refine ⟨l :: before, m, after, rfl, ?_, fun h => ?_⟩
        · rwa [List.flatMap_cons, byteSize_append, ← Nat.add_assoc]
        · rw [List.cons_append, List.flatMap_cons, byteSize_append, ← Nat.add_assoc]
          exact hstop h

theorem exists_lineAt (t : Text) (offset : Nat) :
    ∃ before l after, t.LineAt offset before l after := by
  obtain ⟨full, last, hlines, -⟩ := t.exists_lines_eq
  have hne : t.lines ≠ [] := by simp [hlines]
  obtain ⟨before, l, after, hsplit, hstart, hstop⟩ := exists_split hne (Nat.zero_le offset)
  rw [Nat.zero_add] at hstart hstop
  exact ⟨before, l, after, hsplit, hstart, hstop⟩

/-- The number of the line is the number of lines that start up to the byte. -/
theorem LineAt.length_takeWhile {t : Text} {offset : Nat} {before after : List Line} {l : Line}
    (h : t.LineAt offset before l after) :
    (t.lineStarts.takeWhile (· ≤ offset)).length = before.length + 1 := by
  have hbefore : ∀ i ∈ startsFrom 0 before, decide (i ≤ offset) = true := fun i hi =>
    decide_eq_true (Nat.le_trans (le_of_mem_startsFrom hi) (by have := h.start; omega))
  have hafter : (startsFrom (byteSize (before.flatMap Line.text) + l.text.byteSize) after).takeWhile
      (· ≤ offset) = [] := by
    cases after with
    | nil => rfl
    | cons m after =>
      have hstop := h.stop (List.cons_ne_nil m after)
      rw [List.flatMap_append, byteSize_append, List.flatMap_singleton] at hstop
      rw [startsFrom, List.takeWhile_cons, if_neg (by simpa using hstop)]
  rw [lineStarts_eq, h.lines, startsFrom_append, List.takeWhile_append_of_pos hbefore, Nat.zero_add,
    startsFrom, List.takeWhile_cons, if_pos (decide_eq_true h.start), hafter, List.length_append,
    length_startsFrom]
  rfl

/-! ### Lines and rows -/

/-- How many carriage returns that no line feed follows begin before `offset`. -/
def loneReturns : Text → Nat → Nat
  | [], _ => 0
  | c :: t, offset =>
    if offset = 0 then 0
    else (if c = '\r' ∧ t.head? ≠ some '\n' then 1 else 0) + loneReturns t (offset - c.utf8Size)

/-- A carriage return that no line feed follows stands at `offset`. -/
def LoneReturn (t : Text) (offset : Nat) : Prop :=
  ∃ before after, t = before ++ '\r' :: after ∧ before.byteSize = offset ∧ after.head? ≠ some '\n'

theorem loneReturn_cons_iff {c : Char} {t : Text} {i : Nat} :
    LoneReturn (c :: t) i ↔ i = 0 ∧ c = '\r' ∧ t.head? ≠ some '\n' ∨
      c.utf8Size ≤ i ∧ t.LoneReturn (i - c.utf8Size) := by
  constructor
  · rintro ⟨before, after, he, rfl, hafter⟩
    cases before with
    | nil =>
      cases he
      exact .inl ⟨rfl, rfl, hafter⟩
    | cons d before =>
      cases he
      refine .inr ⟨Nat.le_add_right .., before, after, rfl, ?_, hafter⟩
      rw [byteSize_cons, Nat.add_sub_cancel_left]
  · rintro (⟨rfl, rfl, hafter⟩ | ⟨hle, before, after, rfl, hbefore, hafter⟩)
    · exact ⟨[], t, rfl, rfl, hafter⟩
    · refine ⟨c :: before, after, rfl, ?_, hafter⟩
      rw [byteSize_cons, hbefore, Nat.add_sub_cancel' hle]

theorem loneReturns_eq_zero_iff {t : Text} {offset : Nat} :
    t.loneReturns offset = 0 ↔ ∀ i < offset, ¬ t.LoneReturn i := by
  induction t generalizing offset with
  | nil =>
    refine ⟨fun _ i _ h => ?_, fun _ => rfl⟩
    obtain ⟨before, after, he, -⟩ := h
    cases before <;> cases he
  | cons c t ih =>
    have hc := c.utf8Size_pos
    rw [loneReturns]
    split
    · rename_i hzero
      exact ⟨fun _ i hi => by omega, fun _ => rfl⟩
    · rename_i hpos
      rw [Nat.add_eq_zero_iff, ih]
      constructor
      · rintro ⟨hhead, htail⟩ i hi hlone
        rcases loneReturn_cons_iff.1 hlone with ⟨-, hreturn⟩ | ⟨hle, hlone⟩
        · rw [if_pos hreturn] at hhead
          cases hhead
        · exact htail _ (by omega) hlone
      · intro h
        refine ⟨if_neg fun hreturn => ?_, fun i hi hlone => ?_⟩
        · exact h 0 (by omega) (loneReturn_cons_iff.2 (.inl ⟨rfl, hreturn⟩))
        · refine h (c.utf8Size + i) (by omega)
            (loneReturn_cons_iff.2 (.inr ⟨Nat.le_add_right .., ?_⟩))
          rwa [Nat.add_sub_cancel_left]

theorem loneReturns_zero (t : Text) : t.loneReturns 0 = 0 := by
  cases t with
  | nil => rfl
  | cons c t => rw [loneReturns, if_pos rfl]

/-- Up to a byte, there is a line ending for every row that has ended and for every carriage return
that stands alone. -/
private theorem length_takeWhile_breaksFrom (t : Text) (start left row column : Nat) :
    row + ((breaksFrom start t).takeWhile (· ≤ start + left)).length =
      (rowColumn.go t left row column).1 + t.loneReturns left := by
  induction t generalizing start left row column with
  | nil => rfl
  | cons c t ih =>
    by_cases hzero : left = 0
    · rw [takeWhile_breaksFrom_eq_nil (by omega), rowColumn.go, if_pos hzero, hzero,
        loneReturns_zero]
      rfl
    rw [rowColumn.go, if_neg hzero, loneReturns, if_neg hzero, breaksFrom]
    by_cases hwhole : c.utf8Size ≤ left
    · -- The character lies before the byte, and so does the line ending that it may be.
      have hends : ((if EndsLine c t then [start + c.utf8Size] else []) ++
          breaksFrom (start + c.utf8Size) t).takeWhile (· ≤ start + left) =
            (if EndsLine c t then [start + c.utf8Size] else []) ++
              (breaksFrom (start + c.utf8Size) t).takeWhile (· ≤ start + left) := by
        refine List.takeWhile_append_of_pos fun i hi => decide_eq_true ?_
        split at hi
        · cases List.mem_singleton.1 hi
          omega
        · cases hi
      have hrest := ih (start + c.utf8Size) (left - c.utf8Size)
      rw [Nat.add_assoc, Nat.add_sub_cancel' hwhole] at hrest
      rw [hends, List.length_append, if_pos hwhole]
      by_cases hfeed : c = '\n'
      · have hreturn : ¬ (c = '\r' ∧ t.head? ≠ some '\n') := fun h => by
          cases hfeed.symm.trans h.1
        have hsize : c.utf8Size = 1 := by rw [hfeed]; rfl
        rw [if_pos (.inl hfeed), if_pos hfeed, if_neg hreturn, Nat.zero_add, ← Nat.add_assoc]
        rw [hsize] at hrest ⊢
        exact hrest (row + 1) 0
      · rw [if_neg hfeed]
        by_cases hreturn : c = '\r' ∧ t.head? ≠ some '\n'
        · rw [if_pos (.inr hreturn), if_pos hreturn, Nat.add_left_comm,
            hrest row (column + c.utf8Size), Nat.add_left_comm]
          rfl
        · have hopen : ¬ EndsLine c t := not_or.2 ⟨hfeed, hreturn⟩
          rw [if_neg hopen, if_neg hreturn, List.length_nil, Nat.zero_add, Nat.zero_add]
          exact hrest row (column + c.utf8Size)
    · -- The byte is inside the character, which is then no line ending.
      have hwide : ∀ d : Char, d.utf8Size = 1 → c ≠ d := fun d hd he => by
        subst he
        omega
      have hopen : ¬ EndsLine c t := fun h =>
        h.elim (hwide '\n' rfl) fun h => hwide '\r' rfl h.1
      rw [if_neg hopen, if_neg (hwide '\n' rfl), if_neg hwhole,
        if_neg fun h => hwide '\r' rfl h.1, List.nil_append, takeWhile_breaksFrom_eq_nil (by omega),
        Nat.sub_eq_zero_of_le (Nat.le_of_not_le hwhole), loneReturns_zero]
      rfl

theorem length_takeWhile_lineStarts (t : Text) (offset : Nat) :
    (t.lineStarts.takeWhile (· ≤ offset)).length =
      (t.rowColumn offset).1 + 1 + t.loneReturns offset := by
  have h := length_takeWhile_breaksFrom t 0 offset 0 0
  rw [Nat.zero_add, Nat.zero_add] at h
  rw [lineStarts_eq_breaks, List.takeWhile_cons, if_pos (decide_eq_true (Nat.zero_le offset)),
    List.length_cons, h, Nat.add_right_comm]
  rfl

theorem LineAt.length_eq {t : Text} {offset : Nat} {before after : List Line} {l : Line}
    (h : t.LineAt offset before l after) :
    before.length + 1 = (t.rowColumn offset).1 + 1 + t.loneReturns offset :=
  h.length_takeWhile.symm.trans (t.length_takeWhile_lineStarts offset)

end Text

end ContractAtlas
