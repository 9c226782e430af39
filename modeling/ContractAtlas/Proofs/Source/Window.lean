import ContractAtlas.Proofs.Source.Partition
import ContractAtlas.Proofs.Text.Cutting
import ContractAtlas.Proofs.Text.Trim

/-! The context of a line is a window of lines around it. The window is the right one as long as the
number of its last line is computed without overflow; else it ends before the line itself. -/
namespace ContractAtlas

namespace Text

theorem isBlankText_join_iff {glue : Text} (hglue : IsBlankText glue) {pieces : List Text} :
    IsBlankText (join glue pieces) ↔ ∀ piece ∈ pieces, IsBlankText piece := by
  induction pieces with
  | nil => exact iff_of_true isBlankText_nil (List.forall_mem_nil _)
  | cons first pieces ih =>
    cases pieces with
    | nil => rw [join_singleton, List.forall_mem_singleton]
    | cons second pieces =>
      rw [join_cons_cons, List.forall_mem_cons, ← ih, IsBlankText, List.forall_mem_append,
        List.forall_mem_append]
      exact and_congr_right fun _ => and_iff_right hglue

/-- More pieces make a joined text longer by white space only if all of them are white space. -/
theorem exists_join_append {glue : Text} (hglue : IsBlankText glue) (pieces more : List Text) :
    ∃ rest, join glue (pieces ++ more) = join glue pieces ++ rest ∧
      (IsBlankText rest ↔ ∀ piece ∈ more, IsBlankText piece) := by
  induction pieces with
  | nil => exact ⟨join glue more, rfl, isBlankText_join_iff hglue⟩
  | cons first pieces ih =>
    cases pieces with
    | nil =>
      cases more with
      | nil =>
        exact ⟨[], (List.append_nil _).symm, iff_of_true isBlankText_nil (List.forall_mem_nil _)⟩
      | cons second more =>
        refine ⟨glue ++ join glue (second :: more), ?_, ?_⟩
        · rw [List.singleton_append, join_cons_cons, join_singleton]
        · rw [← isBlankText_join_iff hglue, IsBlankText, List.forall_mem_append]
          exact and_iff_right hglue
    | cons second pieces =>
      obtain ⟨rest, hrest, hblank⟩ := ih
      refine ⟨rest, ?_, hblank⟩
      rw [List.cons_append, List.cons_append, join_cons_cons, join_cons_cons,
        ← List.cons_append, hrest, List.append_assoc, List.append_assoc]

end Text

namespace SourceFile
variable {f : SourceFile}

/-- The lines from number `first` to number `last`, both counted from one. -/
def linesBetween (f : SourceFile) (first last : Nat) : List Text :=
  (List.range' first (last + 1 - first)).filterMap f.line?

theorem linesBetween_eq (f : SourceFile) (i count : Nat) :
    f.linesBetween (i + 1) (i + count) = ((f.text.lines.drop i).take count).map Line.body := by
  rw [linesBetween, show i + count + 1 - (i + 1) = count by omega]
  induction count generalizing i with
  | zero => rfl
  | succ count ih =>
    rw [List.range'_succ, List.filterMap_cons, line?_succ, ih]
    by_cases hi : i < f.text.lines.length
    · rw [List.getElem?_eq_getElem hi, List.drop_eq_getElem_cons hi, List.take_succ_cons]
      rfl
    · rw [List.getElem?_eq_none (Nat.not_lt.1 hi), List.drop_eq_nil_of_le (Nat.not_lt.1 hi),
        List.drop_eq_nil_of_le (by omega), List.take_nil, List.take_nil]
      rfl

/-- The lines whose numbers are at most `radius` away from `n`. -/
def linesAround (f : SourceFile) (n radius : Nat) : List Text :=
  ((List.range' 1 f.lineCount).filter fun k : Nat => ((k : Int) - n).natAbs ≤ radius).filterMap
    f.line?

private theorem filter_range' {p : Nat → Bool} {before inside after : Nat}
    (h : ∀ k, 1 ≤ k → k ≤ before + inside + after →
      (p k = true ↔ before < k ∧ k ≤ before + inside)) :
    (List.range' 1 (before + inside + after)).filter p = List.range' (before + 1) inside := by
  have hbefore : (List.range' 1 before).filter p = [] := List.filter_eq_nil_iff.2 fun k hk => by
    rw [List.mem_range'_1] at hk
    rw [h k hk.1 (by omega)]
    omega
  have hinside : (List.range' (before + 1) inside).filter p = List.range' (before + 1) inside :=
    List.filter_eq_self.2 fun k hk => by
      rw [List.mem_range'_1] at hk
      rw [h k (by omega) (by omega)]
      omega
  have hafter : (List.range' (before + inside + 1) after).filter p = [] :=
    List.filter_eq_nil_iff.2 fun k hk => by
    rw [List.mem_range'_1] at hk
    rw [h k (by omega) (by omega)]
    omega
  have hsplit : List.range' 1 (before + inside + after) =
      List.range' 1 before ++
        (List.range' (before + 1) inside ++ List.range' (before + inside + 1) after) := by
    rw [Nat.add_assoc, ← List.range'_append_1, ← List.range'_append_1, Nat.add_comm 1 before,
      Nat.add_right_comm before 1 inside]
  rw [hsplit, List.filter_append, List.filter_append, hbefore, hinside, hafter, List.nil_append,
    List.append_nil]

/-- The lines around a line are those between the first and the last one that the radius reaches. -/
theorem linesAround_eq {n : Nat} (hn : 1 ≤ n ∧ n ≤ f.lineCount) (radius : Nat) :
    f.linesAround n radius =
      f.linesBetween (max (n - radius) 1) (min (n + radius) f.lineCount) := by
  obtain ⟨before, hfirst⟩ : ∃ before, max (n - radius) 1 = before + 1 :=
    ⟨max (n - radius) 1 - 1, by omega⟩
  obtain ⟨inside, hlast⟩ : ∃ inside, min (n + radius) f.lineCount = before + inside :=
    ⟨min (n + radius) f.lineCount - before, by omega⟩
  obtain ⟨after, hcount⟩ : ∃ after, f.lineCount = before + inside + after :=
    ⟨f.lineCount - (before + inside), by omega⟩
  have hnear : (List.range' 1 f.lineCount).filter (fun k : Nat => ((k : Int) - n).natAbs ≤ radius) =
      List.range' (before + 1) inside := by
    rw [hcount]
    refine filter_range' fun k hk hle => ?_
    rw [decide_eq_true_eq]
    omega
  rw [linesAround, hnear, linesBetween, hfirst, hlast,
    show before + inside + 1 - (before + 1) = inside by omega]

/-- The sum of a line number and a radius, as long as it fits into a word. -/
theorem toNat_ofNat_add {n : Nat} {radius : UInt64} (hwords : n + radius.toNat < UInt64.size) :
    (UInt64.ofNat n + radius).toNat = n + radius.toNat := by
  rw [UInt64.toNat_add, UInt64.toNat_ofNat_of_lt' (by omega)]
  exact Nat.mod_eq_of_lt hwords

theorem contextAround?_eq_some {n : Nat} (hn : (f.line? n).isSome = true) (radius : UInt64) :
    f.contextAround? n radius = some (Text.join ['\n'] (f.linesBetween (max (n - radius.toNat) 1)
      (min (UInt64.ofNat n + radius).toNat f.lineCount))).trim := by
  obtain ⟨line, hline⟩ := Option.isSome_iff_exists.1 hn
  rw [contextAround?, hline]
  rfl

/-- Without overflow the context is made up of the lines around the line. -/
theorem contextAround?_of_lt {n : Nat} (hn : (f.line? n).isSome = true) {radius : UInt64}
    (hwords : n + radius.toNat < UInt64.size) :
    f.contextAround? n radius = some (Text.join ['\n'] (f.linesAround n radius.toNat)).trim := by
  rw [contextAround?_eq_some hn, toNat_ofNat_add hwords,
    linesAround_eq ((f.isSome_line?_iff n).1 hn)]

/-- The same by the lines before and after the line. -/
theorem contextAround?_eq {before after : List Line} {l : Line}
    (hlines : f.text.lines = before ++ l :: after) {radius : UInt64}
    (hwords : before.length + 1 + radius.toNat < UInt64.size) :
    f.contextAround? (before.length + 1) radius =
      some (Text.join ['\n'] ((before.drop (before.length - radius.toNat) ++
        l :: after.take radius.toNat).map Line.body)).trim := by
  have hcount : f.lineCount = before.length + (after.length + 1) := by
    rw [lineCount_eq, hlines, List.length_append, List.length_cons]
  have hline : (f.line? (before.length + 1)).isSome = true :=
    (f.isSome_line?_iff _).2 ⟨Nat.le_add_left .., by omega⟩
  obtain ⟨skipped, hskipped⟩ : ∃ skipped, skipped = before.length - radius.toNat := ⟨_, rfl⟩
  have hbetween := f.linesBetween_eq skipped
    ((before.drop skipped).length + (min radius.toNat after.length + 1))
  rw [hlines, List.drop_append_of_le_length (by omega), List.take_length_add_append,
    List.take_succ_cons, ← List.take_eq_take_min] at hbetween
  rw [contextAround?_eq_some hline, toNat_ofNat_add hwords, ← hskipped, ← hbetween,
    List.length_drop]
  congr 4 <;> omega

/-- The lines that an overflow leaves: the first ones of the file, up to some line before the given
one. All lines of the file would be due. -/
theorem contextAround?_overflow (haccepted : refusal? f.text = none) {n : Nat}
    (hn : (f.line? n).isSome = true) {radius : UInt64} (hwords : UInt64.size ≤ n + radius.toNat) :
    f.contextAround? n radius =
        some (Text.join ['\n']
          ((f.text.lines.map Line.body).take (n + radius.toNat - UInt64.size))).trim ∧
      f.linesAround n radius.toNat = f.text.lines.map Line.body := by
  have hrange := (f.isSome_line?_iff n).1 hn
  have hlimit : f.lineCount ≤ maxLines := f.lineCount_eq ▸ length_lines_le haccepted
  have hmax : 2 * maxLines < UInt64.size := by decide
  have hradius := radius.toNat_lt_size
  have hlast : (UInt64.ofNat n + radius).toNat = n + radius.toNat - UInt64.size := by
    rw [UInt64.toNat_add, UInt64.toNat_ofNat_of_lt' (by omega)]
    exact (Nat.mod_eq_sub_mod hwords).trans (Nat.mod_eq_of_lt (by omega))
  have hfirst : max (n - radius.toNat) 1 = 1 := by omega
  constructor
  · have hmin : min (n + radius.toNat - UInt64.size) f.lineCount =
      n + radius.toNat - UInt64.size := by omega
    have hleft := f.linesBetween_eq 0 (n + radius.toNat - UInt64.size)
    rw [Nat.zero_add, Nat.zero_add, List.drop_zero, List.map_take] at hleft
    rw [contextAround?_eq_some hn, hlast, hfirst, hmin, hleft]
  · have hmin : min (n + radius.toNat) f.lineCount = f.lineCount := by omega
    have hall := f.linesBetween_eq 0 f.lineCount
    rw [Nat.zero_add, Nat.zero_add, List.drop_zero, lineCount_eq, List.take_length] at hall
    rw [linesAround_eq hrange, hfirst, hmin, lineCount_eq, hall]

private theorem forall_mem_drop_lines_iff {P : Text → Prop} (f : SourceFile) (left : Nat) :
    (∀ piece ∈ (f.text.lines.map Line.body).drop left, P piece) ↔
      ∀ k line, left < k → f.line? k = some line → P line := by
  constructor
  · intro h k line hk hline
    obtain ⟨i, rfl⟩ := Nat.exists_eq_add_of_lt hk
    rw [line?_succ, ← List.getElem?_map, ← List.getElem?_drop] at hline
    exact h line (List.mem_of_getElem? hline)
  · intro h piece hpiece
    obtain ⟨i, hi⟩ := List.mem_iff_getElem?.1 hpiece
    rw [List.getElem?_drop, List.getElem?_map, ← line?_succ] at hi
    exact h (left + i + 1) piece (by omega) hi

/-- The context of a line is made up of the lines around it if and only if the number of the last
line due fits into a word, or the lines that the overflow leaves out are white space. -/
theorem contextAround?_exact_iff (haccepted : refusal? f.text = none) {n : Nat}
    (hn : (f.line? n).isSome = true) (radius : UInt64) :
    ∃ context, f.contextAround? n radius = some context ∧
      (context = (Text.join ['\n'] (f.linesAround n radius.toNat)).trim ↔
        n + radius.toNat < UInt64.size ∨
          ∀ k line, n + radius.toNat < UInt64.size + k → f.line? k = some line →
            line.IsBlankText) := by
  by_cases hwords : n + radius.toNat < UInt64.size
  · exact ⟨_, contextAround?_of_lt hn hwords, iff_of_true rfl (.inl hwords)⟩
  · obtain ⟨hcontext, haround⟩ := contextAround?_overflow haccepted hn (Nat.not_lt.1 hwords)
    refine ⟨_, hcontext, ?_⟩
    obtain ⟨left, hleft⟩ := Nat.exists_eq_add_of_le (Nat.not_lt.1 hwords)
    have hfeed : Text.IsBlankText ['\n'] := by decide
    obtain ⟨rest, hjoin, hrest⟩ :=
      Text.exists_join_append hfeed ((f.text.lines.map Line.body).take left)
      ((f.text.lines.map Line.body).drop left)
    rw [List.take_append_drop] at hjoin
    simp only [haround, hleft, Nat.add_sub_cancel_left, Nat.add_lt_add_iff_left]
    rw [or_iff_right (by omega), ← forall_mem_drop_lines_iff, ← hrest, hjoin, eq_comm]
    exact Text.trim_append_eq_iff

end SourceFile

namespace Sample

/-- Two lines with a letter each. -/
def twoLetters : SourceFile := ⟨0, "a.sol", ['a', '\n', 'b']⟩

/-- The same with an ending behind the second line. -/
def closedLetters : SourceFile := ⟨0, "a.sol", ['a', '\n', 'b', '\n']⟩

/-- The greatest number of a word. -/
def allLines : UInt64 := 18446744073709551615

end Sample

namespace SourceFile

/-- Seen from its empty last line, a file is whole in spite of the overflow. -/
theorem contextAround?_exact_iff_sample :
    refusal? Sample.closedLetters.text = none ∧ (Sample.closedLetters.line? 3).isSome = true ∧
      ¬ 3 + Sample.allLines.toNat < UInt64.size ∧
      ∃ context, Sample.closedLetters.contextAround? 3 Sample.allLines = some context ∧
        context =
          (Text.join ['\n'] (Sample.closedLetters.linesAround 3 Sample.allLines.toNat)).trim := by
  have haccepted : refusal? Sample.closedLetters.text = none := by decide
  have hline : (Sample.closedLetters.line? 3).isSome = true := by decide
  obtain ⟨context, hcontext, hexact⟩ := contextAround?_exact_iff haccepted hline Sample.allLines
  refine ⟨haccepted, hline, by decide, context, hcontext,
    hexact.2 (.inr fun k line hk hkline => ?_)⟩
  have hrange := (Sample.closedLetters.isSome_line?_iff k).1 (Option.isSome_of_eq_some hkline)
  have hcount : Sample.closedLetters.lineCount = 3 := by decide
  have hradius : 3 + Sample.allLines.toNat = UInt64.size + 2 := by decide
  have hlast : Sample.closedLetters.line? 3 = some [] := by decide
  obtain rfl : k = 3 := by omega
  cases hlast.symm.trans hkline
  exact Text.isBlankText_nil

/-- Seen from its first line, a file of two lines is not there at all. -/
theorem context_empty_on_overflow :
    refusal? Sample.twoLetters.text = none ∧ Sample.twoLetters.line? 1 = some ['a'] ∧
      (Text.join ['\n'] (Sample.twoLetters.linesAround 1 Sample.allLines.toNat)).trim =
        ['a', '\n', 'b'] ∧
      Sample.twoLetters.contextAround? 1 Sample.allLines = some [] := by
  decide

end SourceFile

end ContractAtlas
