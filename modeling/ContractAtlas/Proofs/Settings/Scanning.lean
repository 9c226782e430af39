import ContractAtlas.Settings.Format

/-! What the scanner makes of quoted texts, numbers and lists of them. -/
namespace ContractAtlas.Settings.Token

/-! ### Quoted texts -/

theorem hexValue?_hexDigit : ∀ n < 16, hexValue? (hexDigit n) = some n := by decide

/-- Inside quotes, the written form of a character is read as that character. -/
theorem foldlM_escape (c : Char) (done : Text) (tokens : List Token) :
    (escape c).foldlM step ⟨.text done, tokens⟩ = some ⟨.text (c :: done), tokens⟩ := by
  by_cases hletter : c ∈ ['"', '\\', '\x08', '\x0c', '\n', '\r', '\t']
  · simp only [List.mem_cons, List.not_mem_nil, or_false] at hletter
    rcases hletter with rfl | rfl | rfl | rfl | rfl | rfl | rfl <;> rfl
  · simp only [List.mem_cons, List.not_mem_nil, or_false, not_or] at hletter
    obtain ⟨hquote, hbackslash, h₁, h₂, h₃, h₄, h₅⟩ := hletter
    rw [escape, if_neg hquote, if_neg hbackslash, if_neg h₁, if_neg h₂, if_neg h₃, if_neg h₄,
      if_neg h₅]
    by_cases hcontrol : c.toNat < 32
    · -- Two zeros and two digits, whose value is far from the halves of a pair.
      have hhigh := hexValue?_hexDigit (c.toNat / 16) (by omega)
      have hlow := hexValue?_hexDigit (c.toNat % 16) (by omega)
      have hvalue : c.toNat / 16 * 16 + c.toNat % 16 = c.toNat := by omega
      have hfinish : finishHex done c.toNat none = some (.text (c :: done)) := by
        have hnoHigh : ¬ 0xD800 ≤ c.toNat := by omega
        have hnoLow : ¬ 0xDC00 ≤ c.toNat := by omega
        simp [finishHex, hnoHigh, hnoLow]
      have hzero : hexValue? '0' = some 0 := rfl
      simp [hcontrol, step, hzero, hhigh, hlow, hvalue, hfinish]
    · simp [hcontrol, step, hquote, hbackslash]

theorem foldlM_flatMap_escape (s done : Text) (tokens : List Token) :
    (s.flatMap escape).foldlM step ⟨.text done, tokens⟩ =
      some ⟨.text (s.reverse ++ done), tokens⟩ := by
  induction s generalizing done with
  | nil => rfl
  | cons c s ih =>
    rw [List.flatMap_cons, List.foldlM_append, foldlM_escape]
    exact (ih (c :: done)).trans (by rw [List.reverse_cons, List.append_assoc]; rfl)

/-! ### Numbers -/

theorem step_digit {n : Nat} (hn : n < 10) (tokens : List Token) :
    step ⟨.between, tokens⟩ n.digitChar = some ⟨.number n, tokens⟩ := by
  have hspace : ∀ n < 10, isSpace n.digitChar = false := by decide
  simp only [step, stepBetween, hspace n hn, Nat.isDigit_digitChar, hn, decide_true, if_true,
    Nat.toNat_digitChar_sub_48_of_lt_ten hn, Bool.false_eq_true, if_false]

/-- A digit shifts a number that has begun, unless it began with zero. -/
theorem step_number_digit {m n : Nat} (hm : m ≠ 0) (hn : n < 10) (tokens : List Token) :
    step ⟨.number m, tokens⟩ n.digitChar = some ⟨.number (m * 10 + n), tokens⟩ := by
  simp only [step, Nat.isDigit_digitChar, hn, decide_true, if_true, hm, if_false,
    Nat.toNat_digitChar_sub_48_of_lt_ten hn]

theorem foldlM_toDigits (n : Nat) (tokens : List Token) :
    (Nat.toDigits 10 n).foldlM step ⟨.between, tokens⟩ = some ⟨.number n, tokens⟩ := by
  induction n using Nat.strongRecOn with
  | ind n ih =>
    rw [Nat.toDigits_eq_if (by decide)]
    split
    · rename_i hsmall
      rw [List.foldlM_cons, step_digit hsmall]
      rfl
    · rename_i hlarge
      have hlast :=
        step_number_digit (m := n / 10) (by omega) (Nat.mod_lt n (by decide : 0 < 10)) tokens
      rw [Nat.div_add_mod'] at hlast
      rw [List.foldlM_append, ih (n / 10) (by omega)]
      exact congrArg (· >>= pure) hlast

/-! ### Pieces of a document -/

/-- Read between two tokens, the text adds these tokens and ends between two tokens. -/
def Spells (t : Text) (tokens : List Token) : Prop :=
  ∀ done, t.foldlM step ⟨.between, done⟩ = some ⟨.between, tokens.reverse ++ done⟩

/-- The same, but that the last token may be a number to which another digit would still belong. -/
def SpellsOpen (t : Text) (tokens : List Token) : Prop :=
  ∀ done, ∃ s, t.foldlM step ⟨.between, done⟩ = some s ∧
    ∀ c, c.isDigit = false → step s c = step ⟨.between, tokens.reverse ++ done⟩ c

variable {t u : Text} {tokens more : List Token}

theorem Spells.isOpen (h : Spells t tokens) : SpellsOpen t tokens := fun done =>
  ⟨_, h done, fun _ _ => rfl⟩

theorem Spells.append (ht : Spells t tokens) (hu : Spells u more) :
    Spells (t ++ u) (tokens ++ more) := by
  intro done
  rw [List.foldlM_append, ht done, List.reverse_append, List.append_assoc]
  exact hu _

theorem Spells.append_open (ht : Spells t tokens) (hu : SpellsOpen u more) :
    SpellsOpen (t ++ u) (tokens ++ more) := by
  intro done
  rw [List.foldlM_append, ht done, List.reverse_append, List.append_assoc]
  exact hu _

/-- A number ends where no digit follows. -/
theorem SpellsOpen.append {c : Char} (ht : SpellsOpen t tokens) (hc : c.isDigit = false)
    (hu : Spells (c :: u) more) : Spells (t ++ c :: u) (tokens ++ more) := by
  intro done
  obtain ⟨s, hs, hnext⟩ := ht done
  rw [List.foldlM_append, hs, List.reverse_append, List.append_assoc, ← hu]
  show (c :: u).foldlM step s = _
  rw [List.foldlM_cons, List.foldlM_cons, hnext c hc]

theorem spells_quote (s : Text) : Spells (quote s) [.text s] := by
  intro done
  show (s.flatMap escape ++ ['"']).foldlM step ⟨.text [], done⟩ = _
  rw [List.foldlM_append, foldlM_flatMap_escape, List.append_nil]
  show some (Scan.mk .between (Token.text s.reverse.reverse :: done)) = _
  rw [List.reverse_reverse]
  rfl

theorem spellsOpen_toDigits (n : Nat) : SpellsOpen (Nat.toDigits 10 n) [.number n] := by
  refine fun done => ⟨_, foldlM_toDigits n done, fun c hc => ?_⟩
  show (if c.isDigit = true then _ else _) = _
  rw [hc]
  rfl

/-- Pieces with commas between them. -/
theorem spellsOpen_join {α : Type} {c : Char} {glue : Text} (hc : c.isDigit = false)
    (hglue : Spells (c :: glue) [.comma]) {write : α → Text} {spelled : α → List Token}
    (items : List α) (hitems : ∀ a ∈ items, SpellsOpen (write a) (spelled a)) :
    SpellsOpen (Text.join (c :: glue) (items.map write))
      ([Token.comma].intercalate (items.map spelled)) := by
  induction items with
  | nil => exact fun done => ⟨_, rfl, fun _ _ => rfl⟩
  | cons a items ih =>
    have ha := hitems a List.mem_cons_self
    have hrest := ih fun b hb => hitems b (List.mem_cons_of_mem _ hb)
    cases items with
    | nil => simpa [Text.join, List.intercalate] using ha
    | cons b items =>
      simpa [Text.join, List.intercalate] using (ha.append hc hglue).append_open hrest

end ContractAtlas.Settings.Token
