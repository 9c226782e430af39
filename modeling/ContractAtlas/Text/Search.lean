import ContractAtlas.Text.Basic

/-! Finding and splitting text at a fixed piece of text. -/
namespace ContractAtlas.Text

/-- The text before and after the first occurrence of `needle`. -/
def cut? (needle : Text) : Text → Option (Text × Text)
  | [] => if needle.isEmpty then some ([], []) else none
  | c :: t =>
    if needle.isPrefixOf (c :: t) then some ([], (c :: t).drop needle.length)
    else (cut? needle t).map fun (before, after) => (c :: before, after)

theorem eq_of_cut? {needle t before after : Text} (h : cut? needle t = some (before, after)) :
    t = before ++ (needle ++ after) := by
  induction t generalizing before with
  | nil =>
    rw [cut?] at h
    split at h
    · simp_all
    · cases h
  | cons c t ih =>
    rw [cut?] at h
    split at h
    · rename_i hp
      obtain ⟨rest, hr⟩ := List.isPrefixOf_iff_prefix.1 hp
      cases h
      rw [← hr, List.drop_left, List.nil_append]
    · obtain ⟨⟨b, a⟩, hb, he⟩ := Option.map_eq_some_iff.1 h
      cases he
      rw [ih hb, List.cons_append]

/-- The text before and after the last occurrence of the character `c`. -/
def cutLast? (c : Char) (t : Text) : Option (Text × Text) :=
  (cut? [c] t.reverse).map fun (after, before) => (before.reverse, after.reverse)

/-- Whether `needle` occurs in `t`. -/
def contains (t needle : Text) : Bool :=
  match t with
  | [] => needle.isEmpty
  | c :: rest => needle.isPrefixOf (c :: rest) || contains rest needle

theorem contains_iff {t needle : Text} : contains t needle = true ↔ needle <:+: t := by
  induction t with
  | nil => simp [contains, List.isEmpty_iff]
  | cons c t ih =>
    rw [contains, Bool.or_eq_true, List.isPrefixOf_iff_prefix, ih, List.infix_cons_iff]

/-- Byte offset of the first occurrence of `needle`. -/
def offset? (t needle : Text) : Option Nat := (cut? needle t).map fun (before, _) => byteSize before

/-- What follows `head`, when the text starts with it. -/
def after? (head t : Text) : Option Text :=
  if head.isPrefixOf t then some (t.drop head.length) else none

/-- What precedes `tail`, when the text ends with it. -/
def before? (tail t : Text) : Option Text :=
  if tail.isSuffixOf t then some (t.take (t.length - tail.length)) else none

/-- `pieces` with `glue` between them. -/
def join (glue : Text) (pieces : List Text) : Text := glue.intercalate pieces

/-- The pieces between occurrences of the character `c`; never empty. -/
def splitAt (c : Char) : Text → List Text
  | [] => [[]]
  | d :: t =>
    match splitAt c t with
    | [] => [[d]]
    | piece :: pieces => if d == c then [] :: piece :: pieces else (d :: piece) :: pieces

theorem splitAt_ne_nil (c : Char) (t : Text) : splitAt c t ≠ [] := by
  cases t with
  | nil => simp [splitAt]
  | cons d t =>
    rw [splitAt]
    split
    · simp
    · split <;> simp

/-- Joining the pieces gives back the text. -/
@[simp] theorem join_splitAt (c : Char) (t : Text) : join [c] (splitAt c t) = t := by
  induction t with
  | nil => rfl
  | cons d t ih =>
    rw [splitAt]
    split
    · rename_i h; exact absurd h (splitAt_ne_nil c t)
    · rename_i piece pieces h
      rw [h] at ih
      split
      · rename_i hd
        rw [eq_of_beq hd, ← ih]
        simp [join, List.intercalate]
      · rw [← ih]
        cases pieces <;> simp [join, List.intercalate]

theorem not_mem_of_mem_splitAt {c : Char} {t piece : Text} (h : piece ∈ splitAt c t) :
    c ∉ piece := by
  induction t generalizing piece with
  | nil =>
    cases List.mem_singleton.1 h
    exact List.not_mem_nil
  | cons d t ih =>
    rw [splitAt] at h
    split at h
    · rename_i he
      exact absurd he (splitAt_ne_nil c t)
    · rename_i first rest he
      rw [he] at ih
      split at h
      · rcases List.mem_cons.1 h with rfl | h
        · exact List.not_mem_nil
        · exact ih h
      · rename_i hd
        rcases List.mem_cons.1 h with rfl | h
        · rw [List.mem_cons, not_or]
          exact ⟨fun hc => hd (beq_iff_eq.2 hc.symm), ih List.mem_cons_self⟩
        · exact ih (List.mem_cons_of_mem _ h)

theorem splitAt_of_not_mem {c : Char} {t : Text} (h : c ∉ t) : splitAt c t = [t] := by
  induction t with
  | nil => rfl
  | cons d t ih =>
    rw [List.mem_cons, not_or] at h
    rw [splitAt, ih h.2]
    exact if_neg fun hd => h.1 (eq_of_beq hd).symm

theorem splitAt_append_cons {c : Char} {s : Text} (h : c ∉ s) (t : Text) :
    splitAt c (s ++ c :: t) = s :: splitAt c t := by
  induction s with
  | nil =>
    rw [List.nil_append, splitAt]
    split
    · rename_i he
      exact absurd he (splitAt_ne_nil c t)
    · rename_i piece pieces he
      rw [if_pos (beq_self_eq_true c), he]
  | cons d s ih =>
    rw [List.mem_cons, not_or] at h
    rw [List.cons_append, splitAt, ih h.2]
    exact if_neg fun hd => h.1 (eq_of_beq hd).symm

/-- The texts after each occurrence of `needle`, occurrences not overlapping. -/
def tailsAfter (needle : Text) : Nat → Text → List Text
  | _, [] => []
  | skip + 1, _ :: t => tailsAfter needle skip t
  | 0, c :: t =>
    if needle.isPrefixOf (c :: t) then
      (c :: t).drop needle.length :: tailsAfter needle (needle.length - 1) t
    else tailsAfter needle 0 t

end ContractAtlas.Text
