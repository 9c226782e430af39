import ContractAtlas.Pattern.Glob
import Mathlib.Data.List.Basic
import Mathlib.Data.List.Forall2

/-! What wildcard patterns take. A pattern that compiles takes a text exactly when the text can be
cut into consecutive pieces, one for each character of the pattern, such that every character may
take its piece. Which patterns compile is for the engine to say; one that does not takes nothing. -/
namespace ContractAtlas

/-- The entry may take the piece; characters are compared by their folded forms. -/
def Wildcard.MayTake (fold : Char → Char) : Wildcard → Text → Prop
  | stretch, piece => '\n' ∉ piece
  | single, piece => ∃ c, piece = [c] ∧ c ≠ '\n'
  | exactly d, piece => ∃ c, piece = [c] ∧ fold d = fold c

namespace Glob
variable {fold : Char → Char} {g : Glob} {t : Text} {c d : Char}

/-- The text can be cut into pieces, one for each entry, that the entries may take. -/
def Cuts (fold : Char → Char) (g : Glob) (t : Text) : Prop :=
  ∃ pieces : List Text, pieces.flatten = t ∧ List.Forall₂ (Wildcard.MayTake fold) g pieces

/-! ### Cuts by the first entry and the first character -/

theorem cuts_nil : Cuts fold [] t ↔ t = [] := by
  constructor
  · rintro ⟨pieces, rfl, htake⟩
    cases htake
    rfl
  · rintro rfl
    exact ⟨[], rfl, .nil⟩

theorem cuts_cons {w : Wildcard} :
    Cuts fold (w :: g) t ↔
      ∃ piece rest, piece ++ rest = t ∧ w.MayTake fold piece ∧ Cuts fold g rest := by
  constructor
  · rintro ⟨pieces, rfl, htake⟩
    cases htake with
    | cons hpiece hpieces => exact ⟨_, _, rfl, hpiece, _, rfl, hpieces⟩
  · rintro ⟨piece, _, rfl, hpiece, pieces, rfl, hpieces⟩
    exact ⟨piece :: pieces, rfl, .cons hpiece hpieces⟩

/-- A stretch ends before the next character or goes on with it. -/
theorem cuts_stretch_cons :
    Cuts fold (.stretch :: g) (c :: t) ↔
      Cuts fold g (c :: t) ∨ c ≠ '\n' ∧ Cuts fold (.stretch :: g) t := by
  rw [cuts_cons, cuts_cons]
  constructor
  · rintro ⟨piece, rest, htext, hpiece, hrest⟩
    cases piece with
    | nil =>
      rw [← htext]
      exact .inl hrest
    | cons d piece =>
      obtain ⟨rfl, rfl⟩ := List.cons.inj htext
      obtain ⟨hd, hpiece⟩ := not_or.1 (mt List.mem_cons.2 hpiece)
      exact .inr ⟨Ne.symm hd, piece, rest, rfl, hpiece, hrest⟩
  · rintro (h | ⟨hc, piece, rest, rfl, hpiece, hrest⟩)
    · exact ⟨[], c :: t, rfl, List.not_mem_nil, h⟩
    · exact ⟨c :: piece, rest, rfl, List.not_mem_cons_of_ne_of_not_mem hc.symm hpiece, hrest⟩

/-- An entry that takes one character goes over the next one. -/
private theorem cuts_one {w : Wildcard} (may : Char → Prop)
    (hw : ∀ piece, w.MayTake fold piece ↔ ∃ c, piece = [c] ∧ may c) :
    Cuts fold (w :: g) (c :: t) ↔ may c ∧ Cuts fold g t := by
  simp only [cuts_cons, hw]
  constructor
  · rintro ⟨_, rest, htext, ⟨d, rfl, hd⟩, hrest⟩
    obtain ⟨rfl, rfl⟩ := List.cons.inj htext
    exact ⟨hd, hrest⟩
  · rintro ⟨hc, hrest⟩
    exact ⟨[c], t, rfl, ⟨c, rfl, hc⟩, hrest⟩

theorem cuts_single_cons : Cuts fold (.single :: g) (c :: t) ↔ c ≠ '\n' ∧ Cuts fold g t :=
  cuts_one (· ≠ '\n') fun _ => Iff.rfl

theorem cuts_exactly_cons :
    Cuts fold (.exactly d :: g) (c :: t) ↔ fold d = fold c ∧ Cuts fold g t :=
  cuts_one (fold d = fold ·) fun _ => Iff.rfl

/-! ### Rows -/

/-- The row tells of every tail of the pattern, the longest first, whether it can cut the text. -/
def Tells (fold : Char → Char) (g : Glob) (t : Text) (row : List Bool) : Prop :=
  List.Forall₂ (fun h b => b = true ↔ Cuts fold h t) g.tails row

theorem Tells.headD_iff {row : List Bool} (h : Tells fold g t row) :
    row.headD false = true ↔ Cuts fold g t := by
  cases g with
  | nil =>
    cases h with
    | cons hb _ => exact hb
  | cons w g =>
    cases h with
    | cons hb _ => exact hb

/-- One more character in front of the text: every tail of the pattern goes over that character with
its first entry, or leaves it to the entries behind. -/
theorem Tells.stepRow {row : List Bool} (h : Tells fold g t row) (c : Char) :
    Tells fold g (c :: t) (stepRow c (fold c) (g.map (Wildcard.map fold)) row) := by
  induction g generalizing row with
  | nil => exact .cons (iff_of_false Bool.false_ne_true (mt cuts_nil.1 (List.cons_ne_nil c t))) .nil
  | cons w g ih =>
    obtain ⟨here, row, hhere, hrow, rfl⟩ := List.forall₂_cons_left_iff.1 h
    have hlater : row.headD false = true ↔ Cuts fold g t := Tells.headD_iff hrow
    have hnext := ih hrow
    refine .cons ?_ hnext
    cases w with
    | stretch =>
      show ((Glob.stepRow c (fold c) (g.map (Wildcard.map fold)) row).headD false ||
        (c != '\n' && here)) = true ↔ _
      rw [Bool.or_eq_true, Bool.and_eq_true, bne_iff_ne, hnext.headD_iff, hhere, cuts_stretch_cons]
    | single =>
      show (c != '\n' && row.headD false) = true ↔ _
      rw [Bool.and_eq_true, bne_iff_ne, hlater, cuts_single_cons]
    | exactly d =>
      show (fold d == fold c && row.headD false) = true ↔ _
      rw [Bool.and_eq_true, beq_iff_eq, hlater, cuts_exactly_cons]

/-- What one character of a pattern may take: a star any stretch, a question mark one character,
neither of them a line feed, and every other character itself. -/
def CharTakes (ignoreCase : Bool) (p : Char) (piece : Text) : Prop :=
  if p = '*' then '\n' ∉ piece
  else if p = '?' then ∃ c, piece = [c] ∧ c ≠ '\n'
  else ∃ c, piece = [c] ∧ if ignoreCase then Text.caseFold p = Text.caseFold c else p = c

/-- The text can be cut into consecutive pieces, one for each character of the pattern, that these
characters may take. -/
def Fits (ignoreCase : Bool) (pattern t : Text) : Prop :=
  ∃ pieces : List Text, pieces.flatten = t ∧ List.Forall₂ (CharTakes ignoreCase) pattern pieces

end Glob

namespace Glob

end Glob

end ContractAtlas
