import ContractAtlas.Text.Basic

/-! White space and trimming. -/
namespace ContractAtlas.Text

/-- The characters with the Unicode property White_Space. -/
def isBlank (c : Char) : Bool :=
  let n := c.toNat
  (9 ≤ n && n ≤ 13) || n == 0x20 || n == 0x85 || n == 0xA0 || n == 0x1680 ||
    (0x2000 ≤ n && n ≤ 0x200A) || n == 0x2028 || n == 0x2029 || n == 0x202F || n == 0x205F ||
    n == 0x3000

/-- Without leading white space. -/
def trimStart (t : Text) : Text := t.dropWhile isBlank

theorem trimStart_of_head {t : Text} (h : t.head?.any isBlank = false) : t.trimStart = t := by
  cases t with
  | nil => rfl
  | cons c t =>
    have hc : isBlank c = false := h
    rw [trimStart, List.dropWhile_cons, hc]
    rfl

/-- Without trailing characters that satisfy `p`. -/
def dropEndWhile (p : Char → Bool) (t : Text) : Text := (t.reverse.dropWhile p).reverse

theorem dropEndWhile_append_cons {p : Char → Bool} {c : Char} (h : p c = false) (s t : Text) :
    dropEndWhile p (s ++ c :: t) = s ++ c :: dropEndWhile p t := by
  have hstop : (c :: s.reverse).dropWhile p = c :: s.reverse := by
    rw [List.dropWhile_cons, h]
    rfl
  rw [dropEndWhile, List.reverse_append, List.reverse_cons, List.append_assoc,
    List.singleton_append, List.dropWhile_append, hstop, dropEndWhile]
  cases t.reverse.dropWhile p with
  | nil => simp
  | cons d rest => simp

theorem dropEndWhile_subset (p : Char → Bool) (t : Text) : dropEndWhile p t ⊆ t := by
  intro c hc
  exact List.mem_reverse.1 ((List.dropWhile_sublist p).subset (List.mem_reverse.1 hc))

/-- Without trailing white space. -/
def trimEnd (t : Text) : Text := t.dropEndWhile isBlank

/-- Without white space at both ends. -/
def trim (t : Text) : Text := t.trimStart.trimEnd

end ContractAtlas.Text
