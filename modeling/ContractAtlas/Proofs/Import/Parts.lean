import ContractAtlas.Grammar.Directive
import ContractAtlas.Proofs.Text.Cutting
import ContractAtlas.Proofs.Text.Trim

/-! The parts of an import statement: a path in quotes, and what stands between the braces before
it. -/
namespace ContractAtlas.Import

/-! ### The path in quotes -/

theorem isQuote_iff {c : Char} : isQuote c = true ↔ c = '"' ∨ c = '\'' := by
  simp [isQuote]

theorem not_isBlank_of_isQuote {c : Char} (h : isQuote c = true) : Text.isBlank c = false := by
  rcases isQuote_iff.1 h with rfl | rfl <;> rfl

/-- The text has a path in quotes: its first quote opens the path, and the next one of the same sort
closes it. -/
structure Quotes (t before path after : Text) (quote : Char) : Prop where
  text : t = before ++ quote :: (path ++ quote :: after)
  opens : isQuote quote = true
  first : ∀ c ∈ before, isQuote c = false
  next : quote ∉ path

/-- A text has no quote at all, or a first one. -/
theorem quote_cases (t : Text) :
    (∀ c ∈ t, isQuote c = false) ∨
      ∃ (before : Text) (quote : Char) (rest : Text), t = before ++ quote :: rest ∧
        isQuote quote = true ∧ ∀ c ∈ before, isQuote c = false := by
  cases hfind : t.find? isQuote with
  | none => exact .inl fun c hc => by simpa using List.find?_eq_none.1 hfind c hc
  | some quote =>
    obtain ⟨hquote, before, rest, ht, hbefore⟩ := List.find?_eq_some_iff_append.1 hfind
    exact .inr ⟨before, quote, rest, ht, hquote, by simpa using hbefore⟩

theorem takeWhile_before {before : Text} (hbefore : ∀ c ∈ before, isQuote c = false) {quote : Char}
    (hquote : isQuote quote = true) (rest : Text) :
    (before ++ quote :: rest).takeWhile (fun c => !isQuote c) = before := by
  rw [List.takeWhile_append_of_pos (by simpa using hbefore)]
  simp [hquote]

theorem quoted?_of_first {before : Text} (hbefore : ∀ c ∈ before, isQuote c = false) {quote : Char}
    (hquote : isQuote quote = true) (rest : Text) :
    quoted? (before ++ quote :: rest) =
      (Text.cut? [quote] rest).map fun cut => (before, cut.1, cut.2) := by
  rw [quoted?, takeWhile_before hbefore hquote, List.drop_left]
  dsimp only
  cases Text.cut? [quote] rest <;> rfl

theorem quoted?_of_none {t : Text} (h : ∀ c ∈ t, isQuote c = false) : quoted? t = none := by
  have hall : t.takeWhile (fun c => !isQuote c) = t :=
    List.takeWhile_eq_self_iff.2 (by simpa using h)
  rw [quoted?, hall, List.drop_length]

theorem quoted?_eq_some_iff {t before path after : Text} :
    quoted? t = some (before, path, after) ↔ ∃ quote, Quotes t before path after quote := by
  constructor
  · intro h
    rcases quote_cases t with hnone | ⟨start, quote, rest, rfl, hquote, hstart⟩
    · rw [quoted?_of_none hnone] at h
      cases h
    · rw [quoted?_of_first hstart hquote] at h
      obtain ⟨cut, hcut, he⟩ := Option.map_eq_some_iff.1 h
      cases he
      obtain ⟨rfl, hnext⟩ := Text.cut?_singleton_eq_some_iff.1 hcut
      exact ⟨quote, rfl, hquote, hstart, hnext⟩
  · rintro ⟨quote, rfl, hquote, hfirst, hnext⟩
    rw [quoted?_of_first hfirst hquote, Text.cut?_singleton hnext]
    rfl

/-- The quotes stay where they are. -/
theorem Quotes.tidy {t before path after : Text} {quote : Char}
    (h : Quotes t before path after quote) :
    Quotes (tidy t) before.trimStart path (after.dropEndWhile (· == ';')).trimEnd quote := by
  have hblank := not_isBlank_of_isQuote h.opens
  have hsemicolon : (quote == ';') = false := by
    have hquote := h.opens
    rw [beq_eq_false_iff_ne]
    rintro rfl
    revert hquote
    decide
  have hsolid : Text.IsSolid (quote :: path ++ [quote]) :=
    ⟨List.cons_ne_nil _ _, hblank, by rw [List.getLast?_concat]; exact hblank⟩
  refine ⟨?_, h.opens, fun c hc => h.first c ((List.dropWhile_sublist _).subset hc), h.next⟩
  have hdrop : Text.dropEndWhile (· == ';') (before ++ quote :: path ++ quote :: after) =
      before ++ quote :: path ++ quote :: Text.dropEndWhile (· == ';') after :=
    Text.dropEndWhile_append_cons (p := (· == ';')) hsemicolon _ after
  have htrim := hsolid.trim_around before (after.dropEndWhile (· == ';'))
  simp only [List.append_assoc, List.cons_append, List.nil_append] at hdrop htrim
  rw [Import.tidy, h.text, hdrop, htrim]

/-- Quotes in what is read were there before. -/
theorem Quotes.of_tidy {t before path after : Text} {quote : Char}
    (h : Quotes (Import.tidy t) before path after quote) :
    ∃ blank rest, Quotes t (blank ++ before) path rest quote ∧ Text.IsBlankText blank := by
  obtain ⟨semicolons, hsemicolons, -⟩ := Text.exists_dropEndWhile (· == ';') t
  obtain ⟨blank, behind, htrim, hblank, -⟩ := Text.exists_trim (t.dropEndWhile (· == ';'))
  refine ⟨blank, after ++ (behind ++ semicolons), ⟨?_, h.opens, ?_, h.next⟩, hblank⟩
  · have htext : (t.dropEndWhile (· == ';')).trim = before ++ quote :: (path ++ quote :: after) :=
      h.text
    rw [htext] at htrim
    rw [htrim] at hsemicolons
    simpa using hsemicolons
  · intro c hc
    rcases List.mem_append.1 hc with hc | hc
    · cases hquote : isQuote c with
      | false => rfl
      | true =>
        have hspace := hblank c hc
        rw [not_isBlank_of_isQuote hquote] at hspace
        cases hspace
    · exact h.first c hc

/-! ### Braces -/

/-- The text has both braces, and its last closing one stands before its first opening one. -/
def Reversed (t : Text) : Prop :=
  ∃ head between tail, t = head ++ '}' :: (between ++ '{' :: tail) ∧
    '{' ∉ head ++ '}' :: between ∧ '}' ∉ between ++ '{' :: tail

/-- Which braces a text has: none that opens, none that closes, a first opening one before the last
closing one, or the two in reverse. -/
inductive Braces.Describes : Text → Braces → Prop
  | absent {t : Text} (h : '{' ∉ t) : Describes t .absent
  | unclosed {t : Text} (hopen : '{' ∈ t) (hclose : '}' ∉ t) : Describes t .unclosed
  | around {head inside tail : Text} (hfirst : '{' ∉ head) (hlast : '}' ∉ tail) :
    Describes (head ++ '{' :: (inside ++ '}' :: tail)) (.around inside)
  | reversed {t : Text} (h : Reversed t) : Describes t .reversed

theorem Braces.ofText_of_describes {t : Text} {b : Braces} (h : Describes t b) :
    Braces.ofText t = b := by
  rw [Braces.ofText]
  cases h with
  | absent h => rw [Text.cut?_singleton_eq_none_iff.2 h]
  | unclosed hopen hclose =>
    obtain ⟨head, tail, rfl, hhead⟩ := List.eq_append_cons_of_mem hopen
    rw [List.mem_append, List.mem_cons, not_or, not_or] at hclose
    rw [Text.cut?_singleton hhead]
    simp only [Text.cutLast?_eq_none_iff.2 hclose.2.2]
    exact if_neg (by rw [Text.contains_singleton]; exact hclose.1)
  | @around head inside tail hfirst hlast =>
    rw [Text.cut?_singleton hfirst]
    simp only [Text.cutLast?_eq_some_iff.2 ⟨rfl, hlast⟩]
  | reversed h =>
    obtain ⟨head, between, tail, rfl, hfirst, hlast⟩ := h
    have hcut := Text.cut?_singleton hfirst tail
    rw [List.append_assoc, List.cons_append] at hcut
    have hnone : '}' ∉ tail := fun h => hlast (by simp [h])
    rw [hcut]
    simp only [Text.cutLast?_eq_none_iff.2 hnone]
    exact if_pos (by rw [Text.contains_singleton]; simp)

theorem Braces.describes_ofText (t : Text) : Describes t (Braces.ofText t) := by
  by_cases hopen : '{' ∈ t
  · obtain ⟨head, tail, rfl, hhead⟩ := List.eq_append_cons_of_mem hopen
    suffices h : ∃ b, Describes (head ++ '{' :: tail) b by
      obtain ⟨b, hb⟩ := h
      rwa [ofText_of_describes hb]
    cases hclose : Text.cutLast? '}' tail with
    | some cut =>
      obtain ⟨htail, hlast⟩ := Text.cutLast?_eq_some_iff.1 hclose
      rw [htail]
      exact ⟨_, .around hhead hlast⟩
    | none =>
      have htail := Text.cutLast?_eq_none_iff.1 hclose
      cases hbefore : Text.cutLast? '}' head with
      | some cut =>
        obtain ⟨rfl, hlast⟩ := Text.cutLast?_eq_some_iff.1 hbefore
        rw [List.append_assoc, List.cons_append]
        exact ⟨_, .reversed ⟨_, _, _, rfl, hhead, by simp [hlast, htail]⟩⟩
      | none =>
        have hnone := Text.cutLast?_eq_none_iff.1 hbefore
        exact ⟨_, .unclosed hopen (by simp [hnone, htail])⟩
  · rw [ofText_of_describes (.absent hopen)]
    exact .absent hopen

/-- White space around a text has no braces. -/
theorem reversed_trim_iff {t : Text} : Reversed t.trim ↔ Reversed t := by
  constructor
  · rintro ⟨head, between, tail, htrim, hfirst, hlast⟩
    obtain ⟨before, after, ht, hbefore, hafter⟩ := t.exists_trim
    have hopen : '{' ∉ before := fun h => absurd (hbefore _ h) (by decide)
    have hclose : '}' ∉ after := fun h => absurd (hafter _ h) (by decide)
    refine ⟨before ++ head, between, tail ++ after, ?_, ?_, ?_⟩
    · rw [htrim] at ht
      simpa using ht
    · rw [List.append_assoc, List.mem_append]
      exact fun h => h.elim hopen hfirst
    · rw [← List.cons_append, ← List.append_assoc, List.mem_append]
      exact fun h => h.elim hlast hclose
  · rintro ⟨head, between, tail, rfl, hfirst, hlast⟩
    have hsolid : Text.IsSolid ('}' :: between ++ ['{']) :=
      ⟨List.cons_ne_nil _ _, rfl, by rw [List.getLast?_concat]; rfl⟩
    refine ⟨Text.trimStart head, between, Text.trimEnd tail, ?_, ?_, ?_⟩
    · simpa using hsolid.trim_around head tail
    · intro h
      refine hfirst ?_
      rw [List.mem_append] at h ⊢
      exact h.imp_left ((List.dropWhile_sublist _).subset ·)
    · intro h
      refine hlast ?_
      simp only [List.mem_append, List.mem_cons] at h ⊢
      exact h.imp_right (Or.imp_right (Text.dropEndWhile_subset _ _ ·))

/-! ### The import from its parts -/

variable {t rest before path after : Text} {quote : Char}

theorem ofText_of_quotes (hword : t.trim = "import".toList ++ rest)
    (h : Quotes (tidy rest) before path after quote) :
    ofText t = ofParts before.trim path after.trim := by
  rw [ofText, Text.after?_eq_some_iff.2 hword, Option.bind_some, quoted?_eq_some_iff.2 ⟨quote, h⟩]

end ContractAtlas.Import
