import ContractAtlas.Proofs.Text.Position
import Mathlib.Data.List.Infix

/-! Where a piece of text first occurs, and the row and column of a place from those of its
parts. -/
namespace ContractAtlas.Text

/-! ### First occurrences -/

/-- `before` stands before the first occurrence of `needle` in `t`, and `after` behind it. -/
def FirstIn (needle t before after : Text) : Prop :=
  t = before ++ (needle ++ after) ∧
    ∀ before' after', t = before' ++ (needle ++ after') → before.length ≤ before'.length

theorem firstIn_of_cut? {needle t before after : Text} (h : cut? needle t = some (before, after)) :
    FirstIn needle t before after := by
  refine ⟨eq_of_cut? h, ?_⟩
  induction t generalizing before with
  | nil =>
    intro before' after' _
    rw [cut?] at h
    obtain ⟨-, h⟩ := Option.ite_none_right_eq_some.1 h
    cases h
    exact Nat.zero_le _
  | cons c t ih =>
    intro before' after' he
    rw [cut?] at h
    split at h
    · cases h
      exact Nat.zero_le _
    · rename_i hfirst
      obtain ⟨cut, hcut, hbefore⟩ := Option.map_eq_some_iff.1 h
      cases hbefore
      cases before' with
      | nil =>
        refine absurd (List.isPrefixOf_iff_prefix.2 ?_) hfirst
        rw [he]
        exact List.prefix_append _ _
      | cons d before' =>
        rw [List.cons_append, List.cons.injEq] at he
        exact Nat.succ_le_succ (ih hcut before' after' he.2)

theorem exists_cut?_of_contains {needle t : Text} (h : contains t needle = true) :
    ∃ before after, cut? needle t = some (before, after) := by
  induction t with
  | nil => exact ⟨[], [], if_pos h⟩
  | cons c t ih =>
    rw [cut?]
    split
    · exact ⟨_, _, rfl⟩
    · rename_i hfirst
      rw [contains, Bool.or_eq_true] at h
      obtain ⟨before, after, hcut⟩ := ih (h.resolve_left hfirst)
      rw [hcut]
      exact ⟨_, _, rfl⟩

theorem cut?_nil {needle : Text} (hne : needle ≠ []) : cut? needle [] = none := by
  rw [cut?]
  exact if_neg (by rwa [List.isEmpty_iff])

/-- If no occurrence reaches over the character `c`, the first one is found before it or else behind
it. -/
theorem cut?_append_cons {needle : Text} {c : Char} {t : Text} (hne : needle ≠ [])
    (hborder : ∀ s, needle <+: s ++ c :: t → needle <+: s) (s : Text) :
    cut? needle (s ++ c :: t) =
      ((cut? needle s).map fun cut => (cut.1, cut.2 ++ c :: t)).or
        ((cut? needle t).map fun cut => (s ++ c :: cut.1, cut.2)) := by
  have hfirst : ∀ s, needle.isPrefixOf (s ++ c :: t) = needle.isPrefixOf s := by
    intro s
    rw [Bool.eq_iff_iff, List.isPrefixOf_iff_prefix, List.isPrefixOf_iff_prefix]
    exact ⟨hborder s, fun h => h.trans (List.prefix_append s _)⟩
  have hnil : ¬ needle.isPrefixOf [] = true := by rwa [List.isPrefixOf_iff_prefix, List.prefix_nil]
  induction s with
  | nil =>
    have hc : needle.isPrefixOf (c :: t) = needle.isPrefixOf [] := hfirst []
    rw [cut?_nil hne, List.nil_append, cut?, hc, if_neg hnil]
    rfl
  | cons d s ih =>
    rw [List.cons_append, cut?, cut?, ← List.cons_append, hfirst, ih]
    split
    · rename_i h
      have hlength := (List.isPrefixOf_iff_prefix.1 h).length_le
      rw [List.drop_append_of_le_length hlength]
      rfl
    · rw [Option.map_or, Option.map_map, Option.map_map, Option.map_map]
      rfl

theorem cut?_singleton {c : Char} {s : Text} (h : c ∉ s) (t : Text) :
    cut? [c] (s ++ c :: t) = some (s, t) := by
  induction s with
  | nil =>
    rw [List.nil_append, cut?, if_pos (by simp)]
    rfl
  | cons d s ih =>
    rw [List.mem_cons, not_or] at h
    rw [List.cons_append, cut?, if_neg (by simpa using h.1), ih h.2]
    rfl

/-- A piece without the character `c` does not reach over one. -/
theorem prefix_of_prefix_append_cons {needle u t : Text} {c : Char} (hc : c ∉ needle)
    (h : needle <+: u ++ c :: t) : needle <+: u := by
  rcases Nat.lt_or_ge u.length needle.length with hlt | hle
  · have hupto : u ++ [c] <+: needle := by
      refine List.prefix_of_prefix_length_le ?_ h ?_
      · exact ⟨t, by rw [List.append_assoc, List.singleton_append]⟩
      · rw [List.length_append, List.length_singleton]
        exact hlt
    exact absurd (hupto.subset (List.mem_append_right _ List.mem_cons_self)) hc
  · exact List.prefix_of_prefix_length_le h (List.prefix_append u _) hle

/-- Whether a row gives up a carriage return makes no difference to where a piece is found in it
that does not end with one. -/
theorem offset?_withoutReturn {needle : Text} (hne : needle ≠ [])
    (hend : needle.getLast? ≠ some '\r')
    (line : Text) : offset? (withoutReturn line) needle = offset? line needle := by
  rw [withoutReturn]
  split
  · rename_i hreturn
    obtain ⟨row, rfl⟩ := List.getLast?_eq_some_iff.1 hreturn
    have hborder : ∀ s, needle <+: s ++ ['\r'] → needle <+: s := by
      intro s h
      rcases List.prefix_concat_iff.1 h with rfl | h
      · exact absurd List.getLast?_concat hend
      · exact h
    rw [List.dropLast_concat, offset?, offset?, cut?_append_cons hne hborder, cut?_nil hne,
      Option.map_none, Option.or_none, Option.map_map]
    rfl
  · rfl

/-! ### Row by row -/

/-- Texts by their rows: a text without a line feed, or a row and the text after its line feed. -/
theorem rowInduction {motive : Text → Prop} (last : ∀ line, '\n' ∉ line → motive line)
    (more : ∀ line rest, '\n' ∉ line → motive rest → motive (line ++ '\n' :: rest)) (t : Text) :
    motive t := by
  by_cases hfeed : '\n' ∈ t
  · obtain ⟨line, rest, rfl, hline⟩ := List.eq_append_cons_of_mem hfeed
    exact more line rest hline (rowInduction last more rest)
  · exact last t hfeed
termination_by t.length
decreasing_by
  subst_vars
  rw [List.length_append, List.length_cons]
  omega

theorem rows_of_not_mem {t : Text} (h : '\n' ∉ t) (hne : t ≠ []) : t.rows = [t] := by
  have hempty : t.isEmpty = false := by rwa [List.isEmpty_eq_false_iff]
  rw [rows, splitAt_of_not_mem h]
  simp only [List.getLastD_cons, List.getLastD_nil, hempty, Bool.false_eq_true, if_false]
  rfl

theorem rows_append_cons {line : Text} (h : '\n' ∉ line) (rest : Text) :
    (line ++ '\n' :: rest).rows = withoutReturn line :: rest.rows := by
  rw [rows, rows, splitAt_append_cons h]
  obtain ⟨piece, pieces, he⟩ := List.exists_cons_of_ne_nil (splitAt_ne_nil '\n' rest)
  rw [he]
  rfl

/-- Row and column of the end of a text, which is where a text after it starts. -/
def endPlace (t : Text) : Nat × Nat := t.rowColumn t.byteSize

theorem endPlace_eq {rows row : Text} (hrows : rows = [] ∨ ['\n'] <:+ rows) (hrow : '\n' ∉ row) :
    (rows ++ row).endPlace = (rows.count '\n', row.byteSize) := by
  have h := rowColumn_append hrows hrow []
  rwa [List.append_nil] at h

theorem rowColumn_byteSize (before after : Text) :
    (before ++ after).rowColumn before.byteSize = before.endPlace := by
  obtain ⟨rows, row, rfl, hrows, hrow⟩ := exists_row before
  rw [endPlace_eq hrows hrow, List.append_assoc, rowColumn_append hrows hrow]

theorem endPlace_of_not_mem {t : Text} (h : '\n' ∉ t) : t.endPlace = (0, t.byteSize) :=
  endPlace_eq (.inl rfl) h

/-- Rows add up; the column goes on from the first text if the second one has no line feed. -/
theorem endPlace_append (s t : Text) :
    (s ++ t).endPlace =
      (s.endPlace.1 + t.endPlace.1,
        if t.endPlace.1 = 0 then s.endPlace.2 + t.endPlace.2 else t.endPlace.2) := by
  obtain ⟨rows, row, rfl, hrows, hrow⟩ := exists_row s
  obtain ⟨rows', row', rfl, hrows', hrow'⟩ := exists_row t
  rw [endPlace_eq hrows hrow, endPlace_eq hrows' hrow']
  rcases hrows' with rfl | hfeed
  · have hnone : '\n' ∉ row ++ row' := fun h => (List.mem_append.1 h).elim hrow hrow'
    rw [List.nil_append, List.append_assoc, endPlace_eq hrows hnone, byteSize_append]
    rfl
  · have hrows'' : ['\n'] <:+ rows ++ row ++ rows' := hfeed.trans (List.suffix_append _ _)
    have hpos : rows'.count '\n' ≠ 0 := by
      rw [ne_eq, List.count_eq_zero, not_not]
      exact hfeed.subset List.mem_cons_self
    rw [← List.append_assoc, endPlace_eq (.inr hrows'') hrow', List.count_append, List.count_append,
      List.count_eq_zero.2 hrow, Nat.add_zero, if_neg hpos]

/-- A row and its line feed take the end of the rest one row down. -/
theorem endPlace_append_cons {line : Text} (h : '\n' ∉ line) (rest : Text) :
    (line ++ '\n' :: rest).endPlace = (rest.endPlace.1 + 1, rest.endPlace.2) := by
  have hline : (line ++ ['\n']).endPlace = (1, 0) := by
    have hend := endPlace_eq (.inr (List.suffix_append line ['\n'])) List.not_mem_nil
    rwa [List.append_nil, List.count_append, List.count_eq_zero.2 h] at hend
  rw [List.append_cons, endPlace_append, hline, Nat.add_comm 1, Nat.zero_add, ite_self]

theorem endPlace_le (t : Text) : t.endPlace.1 ≤ t.byteSize ∧ t.endPlace.2 ≤ t.byteSize := by
  obtain ⟨rows, row, rfl, hrows, hrow⟩ := exists_row t
  rw [endPlace_eq hrows hrow, byteSize_append]
  have hcount : rows.count '\n' ≤ rows.byteSize :=
    List.count_le_length.trans (length_le_byteSize rows)
  exact ⟨Nat.le_add_right_of_le hcount, Nat.le_add_left ..⟩

/-- The text from a row and a byte column on, both counted from zero and rows ended by line feeds;
none if there is no such row, or no boundary between characters at that column of it. -/
def textFrom? : Text → Nat → Nat → Option Text
  | t, 0, column => (boundary? (t.takeWhile (· != '\n')) column).map fun i => t.drop i
  | t, row + 1, column => (cut? ['\n'] t).bind fun cut => textFrom? cut.2 row column

theorem textFrom?_endPlace (before after : Text) :
    (before ++ after).textFrom? before.endPlace.1 before.endPlace.2 = some after := by
  induction before using rowInduction with
  | last line hline =>
    have hrow : ∀ c ∈ line, (c != '\n') = true := fun c hc => bne_iff_ne.2 fun he => hline (he ▸ hc)
    rw [endPlace_of_not_mem hline, textFrom?, List.takeWhile_append_of_pos hrow, boundary?_append,
      Option.map_some, List.drop_left]
  | more line rest hline ih =>
    rw [endPlace_append_cons hline, List.append_assoc, List.cons_append, textFrom?,
      cut?_singleton hline, Option.bind_some]
    exact ih

end ContractAtlas.Text
