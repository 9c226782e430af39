import ContractAtlas.Proofs.Text.Trim

/-! Names of the language: they hold no white space and no punctuation. -/
namespace ContractAtlas

namespace Text
variable {c : Char}

theorem isNamePart_of_isNameStart (h : isNameStart c = true) : isNamePart c = true := by
  simp only [isNameStart, isNamePart, Char.isAlphanum, Bool.or_eq_true] at h ⊢
  rcases h with (h | h) | h
  · exact .inl (.inl (.inl h))
  · exact .inl (.inr h)
  · exact .inr h

/-- The characters of names are ASCII, and none of them comes before the dollar sign. -/
theorem toNat_of_isNamePart (h : isNamePart c = true) : 36 ≤ c.toNat ∧ c.toNat ≤ 122 := by
  have hupper : c.isUpper = true → 65 ≤ c.toNat ∧ c.toNat ≤ 90 := fun h => of_decide_eq_true h
  have hlower : c.isLower = true → 97 ≤ c.toNat ∧ c.toNat ≤ 122 := fun h =>
    (Bool.and_eq_true_iff.1 h).imp of_decide_eq_true of_decide_eq_true
  have hdigit : c.isDigit = true → 48 ≤ c.toNat ∧ c.toNat ≤ 57 := Char.isDigit_iff_toNat.1
  have halpha : c.isAlpha = true → c.isUpper = true ∨ c.isLower = true := Bool.or_eq_true_iff.1
  simp only [isNamePart, Char.isAlphanum, Bool.or_eq_true, beq_iff_eq] at h
  rcases h with ((h | h) | rfl) | rfl
  · rcases halpha h with h | h
    · have := hupper h
      omega
    · have := hlower h
      omega
  · have := hdigit h
    omega
  · decide
  · decide

/-- White space is no part of a name. -/
theorem not_isBlank_of_isNamePart (h : isNamePart c = true) : isBlank c = false := by
  have hrange := toNat_of_isNamePart h
  simp only [isBlank, Bool.or_eq_false_iff, Bool.and_eq_false_iff, decide_eq_false_iff_not,
    beq_eq_false_iff_ne]
  omega

end Text

/-- A name of the language. -/
structure Identifier where
  name : String
  valid : Text.isIdentifier name.toList = true

namespace Identifier
variable (i : Identifier)

def text : Text := i.name.toList

@[simp] theorem ofList_text : String.ofList i.text = i.name := String.ofList_toList

theorem ne_nil : i.text ≠ [] := by
  intro hnil
  have hvalid := i.valid
  rw [show i.name.toList = [] from hnil] at hvalid
  cases hvalid

theorem isNamePart_of_mem {c : Char} (h : c ∈ i.text) : Text.isNamePart c = true := by
  have hvalid : Text.isIdentifier i.text = true := i.valid
  cases htext : i.text with
  | nil => exact absurd htext i.ne_nil
  | cons d t =>
    rw [htext, Text.isIdentifier, Bool.and_eq_true, List.all_eq_true] at hvalid
    rw [htext] at h
    rcases List.mem_cons.1 h with rfl | h
    · exact Text.isNamePart_of_isNameStart hvalid.1
    · exact hvalid.2 c h

theorem not_mem {c : Char} (hc : Text.isNamePart c = false) : c ∉ i.text := by
  intro h
  rw [i.isNamePart_of_mem h] at hc
  cases hc

theorem isSolid : i.text.IsSolid := by
  have hall : ∀ c ∈ i.text, Text.isBlank c = false := fun c hc =>
    Text.not_isBlank_of_isNamePart (i.isNamePart_of_mem hc)
  refine ⟨i.ne_nil, ?_, ?_⟩
  · rw [Option.any_eq_false]
    intro c hc
    rw [hall c (List.mem_of_mem_head? hc)]
  · rw [Option.any_eq_false]
    intro c hc
    rw [hall c (List.mem_of_mem_getLast? hc)]

end Identifier

end ContractAtlas
