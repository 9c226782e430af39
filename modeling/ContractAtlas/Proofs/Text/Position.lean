import ContractAtlas.Source.Line

/-! Byte offsets that fall between characters, the text between two of them, and the row and column
of one. -/
namespace ContractAtlas.Text

theorem eq_nil_of_byteSize {t : Text} (h : t.byteSize = 0) : t = [] := by
  cases t with
  | nil => rfl
  | cons c t =>
    have hc := c.utf8Size_pos
    rw [byteSize_cons] at h
    omega

theorem length_le_byteSize (t : Text) : t.length ≤ t.byteSize := by
  induction t with
  | nil => exact Nat.le_refl 0
  | cons c t ih =>
    have hc := c.utf8Size_pos
    rw [List.length_cons, byteSize_cons]
    omega

theorem byteSize_replicate (n : Nat) (c : Char) :
    byteSize (List.replicate n c) = n * c.utf8Size := by
  induction n with
  | zero => exact (Nat.zero_mul _).symm
  | succ n ih => rw [List.replicate_succ, byteSize_cons, ih, Nat.succ_mul, Nat.add_comm]

/-- The offset is the size of some first part of the text. -/
def IsBoundary (t : Text) (offset : Nat) : Prop :=
  ∃ before after, t = before ++ after ∧ before.byteSize = offset

private theorem isBoundary_of_go {t : Text} {offset k i : Nat}
    (h : boundary?.go t offset k = some i) : t.IsBoundary offset := by
  induction t generalizing offset k with
  | nil =>
    cases offset with
    | zero => exact ⟨[], [], rfl, rfl⟩
    | succ n => rw [boundary?.go] at h; cases h
  | cons c t ih =>
    cases offset with
    | zero => exact ⟨[], c :: t, rfl, rfl⟩
    | succ n =>
      rw [boundary?.go] at h
      split at h
      · rename_i hle
        obtain ⟨before, after, rfl, hsize⟩ := ih h
        refine ⟨c :: before, after, rfl, ?_⟩
        rw [byteSize_cons, hsize]
        omega
      · cases h

theorem isSome_boundary? {t : Text} {offset : Nat} :
    (t.boundary? offset).isSome = true ↔ t.IsBoundary offset := by
  constructor
  · intro h
    obtain ⟨i, hi⟩ := Option.isSome_iff_exists.1 h
    exact isBoundary_of_go hi
  · rintro ⟨before, after, rfl, rfl⟩
    rw [boundary?_append, Option.isSome_some]

instance (t : Text) (offset : Nat) : Decidable (t.IsBoundary offset) :=
  decidable_of_iff _ isSome_boundary?

theorem isBoundary_zero (t : Text) : t.IsBoundary 0 := ⟨[], t, rfl, rfl⟩

theorem IsBoundary.le_byteSize {t : Text} {offset : Nat} (h : t.IsBoundary offset) :
    offset ≤ t.byteSize := by
  obtain ⟨before, after, rfl, rfl⟩ := h
  rw [byteSize_append]
  omega

theorem IsBoundary.lastBoundary_eq {t : Text} {offset : Nat} (h : t.IsBoundary offset) :
    t.lastBoundary offset = offset := by
  have hle := h.le_byteSize
  rw [lastBoundary]
  split
  · omega
  · cases offset with
    | zero => rfl
    | succ n => rw [lastBoundary.back, if_pos (isSome_boundary?.2 h)]

/-- Two boundaries cut a text into three parts, of which the slice is the middle one. -/
theorem exists_slice {t : Text} {start stop : Nat} (hstart : t.IsBoundary start)
    (hstop : t.IsBoundary stop) (hle : start ≤ stop) :
    ∃ before middle after, t = before ++ (middle ++ after) ∧ before.byteSize = start ∧
      before.byteSize + middle.byteSize = stop ∧ t.slice? start stop = some middle := by
  obtain ⟨before, rest, rfl, rfl⟩ := hstart
  obtain ⟨upto, after, heq, rfl⟩ := hstop
  obtain ⟨middle, rfl, rfl⟩ : ∃ middle, upto = before ++ middle ∧ rest = middle ++ after := by
    rcases List.append_eq_append_iff.1 heq with ⟨middle, h, h'⟩ | ⟨middle, rfl, rfl⟩
    · exact ⟨middle, h, h'⟩
    · rw [byteSize_append] at hle
      rw [eq_nil_of_byteSize (t := middle) (by omega)]
      exact ⟨[], by rw [List.append_nil, List.append_nil], rfl⟩
  refine ⟨before, middle, after, rfl, rfl, (byteSize_append ..).symm, ?_⟩
  rw [byteSize_append, slice?_append]

/-- A slice stands in the text at its start. -/
theorem exists_of_slice? {t middle : Text} {start stop : Nat}
    (h : t.slice? start stop = some middle) :
    ∃ before after, t = before ++ (middle ++ after) ∧ before.byteSize = start := by
  by_cases hle : start ≤ stop
  · have hbounds := h
    rw [slice?, if_pos hle] at hbounds
    obtain ⟨i, hi, hbounds⟩ := Option.bind_eq_some_iff.1 hbounds
    obtain ⟨j, hj, -⟩ := Option.bind_eq_some_iff.1 hbounds
    obtain ⟨before, middle', after, rfl, hbefore, -, hslice⟩ := exists_slice
      (isSome_boundary?.1 (Option.isSome_of_eq_some hi))
      (isSome_boundary?.1 (Option.isSome_of_eq_some hj)) hle
    cases h.symm.trans hslice
    exact ⟨before, after, rfl, hbefore⟩
  · rw [slice?, if_neg hle] at h
    cases h

/-- A first part of a slice ends at a boundary within it. -/
theorem isBoundary_of_slice {t middle head rest : Text} {start stop : Nat}
    (hstart : t.IsBoundary start) (hstop : t.IsBoundary stop) (hle : start ≤ stop)
    (hslice : t.slice? start stop = some middle) (hmiddle : middle = head ++ rest) :
    t.IsBoundary (start + head.byteSize) ∧ start + head.byteSize + rest.byteSize = stop := by
  obtain ⟨before, middle', after, rfl, rfl, rfl, hslice'⟩ := exists_slice hstart hstop hle
  cases hslice.symm.trans hslice'
  subst hmiddle
  refine ⟨⟨before ++ head, rest ++ after, ?_, byteSize_append ..⟩, ?_⟩
  · rw [List.append_assoc, List.append_assoc]
  · rw [byteSize_append, Nat.add_assoc]

theorem eq_of_cutLast? {c : Char} {t before after : Text}
    (h : cutLast? c t = some (before, after)) :
    t = before ++ (c :: after) := by
  obtain ⟨⟨a, b⟩, hcut, he⟩ := Option.map_eq_some_iff.1 h
  cases he
  have hreverse := congrArg List.reverse (eq_of_cut? hcut)
  rw [List.reverse_reverse, List.reverse_append, List.reverse_append, List.append_assoc] at hreverse
  exact hreverse

section Rows

private theorem go_cons (c : Char) (t : Text) (left row column : Nat) :
    rowColumn.go (c :: t) (c.utf8Size + left) row column =
      if c = '\n' then rowColumn.go t left (row + 1) 0
      else rowColumn.go t left row (column + c.utf8Size) := by
  have hc := c.utf8Size_pos
  rw [rowColumn.go, if_neg (by omega)]
  split
  · rename_i h
    rw [h, show ('\n' : Char).utf8Size = 1 from rfl, Nat.add_sub_cancel_left]
  · rw [if_pos (Nat.le_add_right ..), Nat.add_sub_cancel_left]

private theorem go_zero (t : Text) (row column : Nat) :
    rowColumn.go t 0 row column = (row, column) := by
  cases t with
  | nil => rfl
  | cons c t => rw [rowColumn.go, if_pos rfl]

/-- Within a row only the column moves. -/
private theorem go_row {line : Text} (hline : '\n' ∉ line) (t : Text) (left row column : Nat) :
    rowColumn.go (line ++ t) (line.byteSize + left) row column =
      rowColumn.go t left row (column + line.byteSize) := by
  induction line generalizing column with
  | nil => rw [List.nil_append, byteSize_nil, Nat.zero_add, Nat.add_zero]
  | cons c line ih =>
    have hc : c ≠ '\n' := fun he => hline (he ▸ List.mem_cons_self)
    rw [List.cons_append, byteSize_cons, Nat.add_assoc, go_cons, if_neg hc,
      ih fun hm => hline (List.mem_cons_of_mem _ hm), Nat.add_assoc]

/-- Past a line feed the column starts anew. -/
private theorem go_rows (lines t : Text) (left row column : Nat) :
    rowColumn.go (lines ++ '\n' :: t) ((lines ++ ['\n']).byteSize + left) row column =
      rowColumn.go t left (row + (lines ++ ['\n']).count '\n') 0 := by
  induction lines generalizing row column with
  | nil =>
    have h := go_cons '\n' t left row column
    rw [if_pos rfl] at h
    exact h
  | cons c lines ih =>
    rw [List.cons_append, List.cons_append, byteSize_cons, Nat.add_assoc, go_cons, List.count_cons]
    split
    · rename_i h
      rw [ih, h, if_pos (beq_self_eq_true _), Nat.add_right_comm, Nat.add_assoc]
    · rename_i h
      rw [ih, if_neg (by simpa using h), Nat.add_zero]

/-- A text ends with a row, which starts the text or follows a line feed. -/
theorem exists_row (t : Text) :
    ∃ rows row, t = rows ++ row ∧ (rows = [] ∨ ['\n'] <:+ rows) ∧ '\n' ∉ row := by
  induction t with
  | nil => exact ⟨[], [], rfl, .inl rfl, List.not_mem_nil⟩
  | cons c t ih =>
    obtain ⟨rows, row, rfl, hrows, hrow⟩ := ih
    by_cases hend : rows = []
    · subst hend
      by_cases hc : c = '\n'
      · exact ⟨[c], row, rfl, .inr (hc ▸ List.suffix_rfl), hrow⟩
      · refine ⟨[], c :: row, rfl, .inl rfl, fun hm => ?_⟩
        exact (List.mem_cons.1 hm).elim (fun he => hc he.symm) hrow
    · exact ⟨c :: rows, row, rfl, .inr ((hrows.resolve_left hend).trans (List.suffix_cons ..)),
        hrow⟩

/-- The row of a boundary is the number of line feeds before it, and its column the size of what
stands before it in that row. -/
theorem rowColumn_append {rows row : Text} (hrows : rows = [] ∨ ['\n'] <:+ rows) (hrow : '\n' ∉ row)
    (after : Text) :
    (rows ++ (row ++ after)).rowColumn (rows ++ row).byteSize =
      (rows.count '\n', row.byteSize) := by
  have hlast : ∀ n, rowColumn.go (row ++ after) row.byteSize n 0 = (n, row.byteSize) := by
    intro n
    have h := go_row hrow after 0 n 0
    rw [Nat.add_zero, go_zero, Nat.zero_add] at h
    exact h
  rw [rowColumn, byteSize_append]
  rcases hrows with rfl | ⟨lines, rfl⟩
  · rw [List.nil_append, byteSize_nil, Nat.zero_add]
    exact hlast 0
  · rw [List.append_assoc, List.singleton_append, go_rows, hlast, Nat.zero_add]

end Rows

end ContractAtlas.Text
