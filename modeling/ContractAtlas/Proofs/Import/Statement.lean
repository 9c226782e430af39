import ContractAtlas.Proofs.Import.Parts
import ContractAtlas.Proofs.Text.Identifier

/-! Import statements as they are written. Each of the four forms is read back as what it says,
whatever the names in it are, the words of the statement included. -/
namespace ContractAtlas.Import

/-! ### Written statements -/

/-- White space, or none. -/
structure Blank where
  text : Text
  isBlank : Text.IsBlankText text

/-- A symbol as it stands between the braces, with white space around it. -/
structure Entry where
  before : Blank
  name : Identifier
  asName : Option Identifier
  after : Blank

namespace Entry

def symbol (e : Entry) : ImportedSymbol := ⟨e.name.name, e.asName.map Identifier.name⟩

/-- The entry without the white space around it. -/
def words (e : Entry) : Text :=
  match e.asName with
  | none => e.name.text
  | some asName => e.name.text ++ (" as ".toList ++ asName.text)

def text (e : Entry) : Text := e.before.text ++ (e.words ++ e.after.text)

end Entry

/-- The four forms of a statement. -/
inductive Form
  /-- The path alone. -/
  | plain
  /-- A name for the file after the path. -/
  | named (asName : Identifier)
  /-- A name for all symbols of the file before the path. -/
  | star (asName : Identifier)
  /-- A list of symbols in braces before the path; `space` stands behind the opening brace. -/
  | listed (space : Blank) (entries : List Entry)

namespace Form

/-- What stands before the path. -/
def before : Form → Text
  | plain | named _ => []
  | star asName => "* as ".toList ++ (asName.text ++ " from ".toList)
  | listed space entries =>
    '{' :: (space.text ++ Text.join [','] (entries.map Entry.text) ++ "\x7d from ".toList)

/-- What stands after the path. -/
def after : Form → Text
  | named asName => " as ".toList ++ asName.text
  | _ => []

def symbols : Form → List ImportedSymbol
  | listed _ entries => entries.map Entry.symbol
  | _ => []

def unitAlias : Form → Option String
  | named asName | star asName => some asName.name
  | _ => none

end Form

inductive Quote
  | single
  | double

def Quote.char : Quote → Char
  | single => '\''
  | double => '"'

/-- A statement with its path in quotes, which does not hold that quote itself, and with any number
of semicolons at its end. -/
structure Statement where
  form : Form
  quote : Quote
  path : String
  unquoted : quote.char ∉ path.toList
  semicolons : Nat

namespace Statement

/-- The statement from behind its first word up to the semicolons. -/
def body (s : Statement) : Text :=
  s.form.before ++ s.quote.char :: (s.path.toList ++ s.quote.char :: s.form.after)

def text (s : Statement) : Text := "import ".toList ++ (s.body ++ List.replicate s.semicolons ';')

/-- What the statement says. -/
def meaning (s : Statement) : Import :=
  { path := s.path, symbols := s.form.symbols, unitAlias := s.form.unitAlias }

end Statement

/-! ### Lists of symbols -/

theorem symbol?_append_of_blank (space : Blank) (t : Text) :
    symbol? (space.text ++ t) = symbol? t := by
  rw [symbol?, symbol?, Text.trim_append_of_blank space.isBlank]

/-- White space and what names are made of. -/
def isEntryPart (c : Char) : Bool := Text.isBlank c || Text.isNamePart c

theorem isEntryPart_of_mem_blank {space : Blank} {c : Char} (h : c ∈ space.text) :
    isEntryPart c = true := by
  rw [isEntryPart, space.isBlank c h, Bool.true_or]

theorem isEntryPart_of_mem_name {name : Identifier} {c : Char} (h : c ∈ name.text) :
    isEntryPart c = true := by
  rw [isEntryPart, name.isNamePart_of_mem h, Bool.or_true]

namespace Entry
variable (e : Entry)

theorem isSolid_words : e.words.IsSolid := by
  rw [words]
  split
  · exact e.name.isSolid
  · rename_i asName _
    exact e.name.isSolid.append asName.isSolid _

/-- Names hold no space, so the first place where an alias can start is the one where it does. -/
theorem symbol?_text : symbol? e.text = some e.symbol := by
  have hspace : ∀ i : Identifier, ' ' ∉ i.text := fun i => i.not_mem (by decide)
  have htrim : e.text.trim = e.words := e.isSolid_words.trim_padded e.before.isBlank e.after.isBlank
  have hne : e.words.isEmpty = false := List.isEmpty_eq_false_iff.2 e.isSolid_words.ne_nil
  rw [symbol?, htrim]
  simp only [hne, Bool.false_eq_true, if_false]
  rw [words, symbol]
  cases e.asName with
  | none =>
    dsimp only
    rw [Text.cut?_eq_none_of_not_mem (by decide) (hspace e.name)]
    simp
  | some asName =>
    have hcut : Text.cut? " as ".toList (e.name.text ++ (" as ".toList ++ asName.text)) =
        some (e.name.text, asName.text) := Text.cut?_of_head_not_mem (hspace e.name) _ _
    dsimp only
    rw [hcut]
    simp [e.name.isSolid.trim_eq, asName.isSolid.trim_eq]

/-- An entry is made of white space and names, the word between the names included. -/
theorem mem_text {c : Char} (h : c ∈ e.text) : isEntryPart c = true := by
  have has : ∀ c ∈ " as ".toList, isEntryPart c = true := List.all_eq_true.1 (by decide)
  have hwords : c ∈ e.words → isEntryPart c = true := by
    rw [words]
    cases e.asName with
    | none => exact isEntryPart_of_mem_name
    | some asName =>
      dsimp only
      rw [List.mem_append, List.mem_append]
      rintro (hc | hc | hc)
      · exact isEntryPart_of_mem_name hc
      · exact has c hc
      · exact isEntryPart_of_mem_name hc
  rw [text, List.mem_append, List.mem_append] at h
  rcases h with h | h | h
  · exact isEntryPart_of_mem_blank h
  · exact hwords h
  · exact isEntryPart_of_mem_blank h

theorem comma_not_mem_text : ',' ∉ e.text := fun h => absurd (e.mem_text h) (by decide)

end Entry

theorem symbols_listed (space : Blank) (entries : List Entry) :
    (Text.splitAt ',' (space.text ++ Text.join [','] (entries.map Entry.text))).filterMap symbol? =
      entries.map Entry.symbol := by
  have hcomma : ',' ∉ space.text := fun h => absurd (space.isBlank _ h) (by decide)
  cases entries with
  | nil =>
    have hnone : symbol? space.text = none := by
      have h := symbol?_append_of_blank space []
      rwa [List.append_nil] at h
    simp [Text.join, Text.splitAt_of_not_mem hcomma, hnone]
  | cons e entries =>
    have hjoin : space.text ++ Text.join [','] ((e :: entries).map Entry.text) =
        Text.join [','] ((space.text ++ e.text) :: entries.map Entry.text) := by
      cases entries <;> simp [Text.join_singleton, Text.join_cons_cons]
    have hpieces : ∀ piece ∈ (space.text ++ e.text) :: entries.map Entry.text, ',' ∉ piece := by
      simp [hcomma, Entry.comma_not_mem_text]
    rw [hjoin, Text.splitAt_join hpieces, List.filterMap_cons, symbol?_append_of_blank,
      e.symbol?_text, List.filterMap_map]
    simp [Entry.symbol?_text]

/-! ### The four forms -/

section Forms
variable (path : Text) (asName : Identifier)

private theorem isBlankText_space : Text.IsBlankText " ".toList := by decide

private theorem ofParts_named :
    ofParts [] path (Text.trim (" as ".toList ++ asName.text)) =
      .ok (some { path := String.ofList path, unitAlias := some asName.name }) := by
  have hsolid : Text.IsSolid ("as".toList ++ (" ".toList ++ asName.text)) :=
    Text.IsSolid.append (by decide) asName.isSolid _
  have htrim : Text.trim (" as ".toList ++ asName.text) =
      "as".toList ++ (" ".toList ++ asName.text) :=
    hsolid.trim_before isBlankText_space
  have hword : Text.after? "as".toList ("as".toList ++ (" ".toList ++ asName.text)) =
      some (" ".toList ++ asName.text) := Text.after?_eq_some_iff.2 rfl
  have hname := asName.isSolid.trim_before isBlankText_space
  rw [htrim, ofParts, Braces.ofText_of_describes (.absent List.not_mem_nil)]
  dsimp only
  rw [wholeFile, hword, Option.map_some, hname, Identifier.ofList_text]
  intro star h
  cases h

/-- The word before the path is told from a name that ends in it by the space between them. -/
private theorem ofParts_star (after : Text) :
    ofParts (Form.star asName).before.trim path after =
      .ok (some { path := String.ofList path, unitAlias := some asName.name }) := by
  have hbefore : (Form.star asName).before.trim =
      '*' :: (" as ".toList ++ (asName.text ++ " from".toList)) := by
    have hsolid : Text.IsSolid
        ("*".toList ++ ((" as ".toList ++ (asName.text ++ " ".toList)) ++ "from".toList)) :=
      Text.IsSolid.append (by decide) (by decide) _
    simpa [Form.before] using hsolid.trim_after isBlankText_space
  have hstar : Text.trim (" as ".toList ++ (asName.text ++ " from".toList)) =
      "as".toList ++ (" ".toList ++ (asName.text ++ " from".toList)) := by
    have hsolid : Text.IsSolid
        ("as".toList ++ ((" ".toList ++ (asName.text ++ " ".toList)) ++ "from".toList)) :=
      Text.IsSolid.append (by decide) (by decide) _
    simpa using hsolid.trim_before isBlankText_space
  have hword :
    Text.after? "as".toList ("as".toList ++ (" ".toList ++ (asName.text ++ " from".toList))) =
      some (" ".toList ++ (asName.text ++ " from".toList)) := Text.after?_eq_some_iff.2 rfl
  have hname : Text.trim (" ".toList ++ (asName.text ++ " from".toList)) =
      asName.text ++ " from".toList :=
    (asName.isSolid.append (by decide : Text.IsSolid "from".toList) " ".toList).trim_before
      isBlankText_space
  have hfrom : Text.before? "from".toList (asName.text ++ " from".toList) =
      some (asName.text ++ " ".toList) := by
    have h := Text.before?_append (asName.text ++ " ".toList) "from".toList
    rwa [List.append_assoc] at h
  have hbraces : '{' ∉ '*' :: (" as ".toList ++ (asName.text ++ " from".toList)) := by
    have hnone : '{' ∉ asName.text := asName.not_mem (by decide)
    simp [hnone]
  rw [hbefore, ofParts, Braces.ofText_of_describes (.absent hbraces)]
  dsimp only
  rw [wholeFile, hstar, hword, Option.bind_eq_bind, Option.bind_some, hname]
  dsimp only
  rw [hfrom, Option.getD_some, asName.isSolid.trim_after isBlankText_space, Identifier.ofList_text]
  rfl

private theorem ofParts_listed (space : Blank) (entries : List Entry) (after : Text) :
    ofParts (Form.listed space entries).before.trim path after =
      .ok (some { path := String.ofList path, symbols := entries.map Entry.symbol }) := by
  have hbefore : (Form.listed space entries).before.trim =
      [] ++
        '{' :: (space.text ++ Text.join [','] (entries.map Entry.text) ++
          '}' :: " from".toList) := by
    have hsolid : Text.IsSolid ("\x7b".toList ++
        ((space.text ++ Text.join [','] (entries.map Entry.text) ++ "\x7d ".toList) ++
          "from".toList)) :=
      Text.IsSolid.append (by decide) (by decide) _
    simpa [Form.before] using hsolid.trim_after isBlankText_space
  rw [hbefore, ofParts, Braces.ofText_of_describes (.around List.not_mem_nil (by decide))]
  dsimp only
  rw [picked, symbols_listed]

end Forms

theorem ofParts_form (f : Form) (path : Text) :
    ofParts f.before.trim path f.after.trim = .ok (some
      { path := String.ofList path, symbols := f.symbols, unitAlias := f.unitAlias }) := by
  cases f with
  | plain => rfl
  | named asName => exact ofParts_named path asName
  | star asName => exact ofParts_star path asName []
  | listed space entries => exact ofParts_listed path space entries []

/-! ### Whole statements -/

theorem isQuote_char (q : Quote) : isQuote q.char = true := by
  cases q <;> rfl

/-- What entries are made of, the star and the punctuation of a list. -/
def isHeadPart (c : Char) : Bool := isEntryPart c || ['*', '{', ',', '}'].contains c

theorem isHeadPart_of_isEntryPart {c : Char} (h : isEntryPart c = true) : isHeadPart c = true := by
  rw [isHeadPart, h, Bool.true_or]

theorem Form.mem_before {f : Form} {c : Char} (h : c ∈ f.before) : isHeadPart c = true := by
  have hwords : ∀ word ∈ ["* as ", " from ", "\x7b", ",", "\x7d from "],
      ∀ c ∈ word.toList, isHeadPart c = true := by
    simp only [← List.all_eq_true]
    decide
  cases f with
  | plain => cases h
  | named asName => cases h
  | star asName =>
    rw [before, List.mem_append, List.mem_append] at h
    rcases h with h | h | h
    · exact hwords "* as " (by decide) c h
    · exact isHeadPart_of_isEntryPart (isEntryPart_of_mem_name h)
    · exact hwords " from " (by decide) c h
  | listed space entries =>
    rw [before, List.mem_cons, List.mem_append, List.mem_append] at h
    rcases h with h | (h | h) | h
    · exact hwords "\x7b" (by decide) c (List.mem_singleton.2 h)
    · exact isHeadPart_of_isEntryPart (isEntryPart_of_mem_blank h)
    · rcases Text.mem_join h with h | ⟨piece, hpiece, hc⟩
      · exact hwords "," (by decide) c h
      · obtain ⟨e, -, rfl⟩ := List.mem_map.1 hpiece
        exact isHeadPart_of_isEntryPart (e.mem_text hc)
    · exact hwords "\x7d from " (by decide) c h

theorem not_isQuote_of_mem_before {f : Form} {c : Char} (h : c ∈ f.before) : isQuote c = false := by
  cases hquote : isQuote c with
  | false => rfl
  | true =>
    rcases isQuote_iff.1 hquote with rfl | rfl
    · exact absurd (f.mem_before h) (by decide)
    · exact absurd (f.mem_before h) (by decide)

namespace Statement
variable (s : Statement)

theorem quotes_body : Quotes s.body s.form.before s.path.toList s.form.after s.quote.char :=
  ⟨rfl, isQuote_char s.quote, fun _ => not_isQuote_of_mem_before, s.unquoted⟩

/-- A statement ends in its closing quote or in a name. -/
theorem exists_last :
    ∃ init d, s.body = init ++ [d] ∧ (isQuote d = true ∨ Text.isNamePart d = true) := by
  cases hform : s.form with
  | named asName =>
    obtain ⟨init, d, hname⟩ : ∃ init d, asName.text = init ++ [d] :=
      ⟨_, _, (List.dropLast_concat_getLast asName.ne_nil).symm⟩
    have hd : Text.isNamePart d = true := asName.isNamePart_of_mem (by simp [hname])
    refine ⟨s.quote.char :: (s.path.toList ++ s.quote.char :: (" as ".toList ++ init)),
      d, ?_, .inr hd⟩
    simp [body, hform, Form.before, Form.after, hname]
  | _ =>
    refine ⟨s.form.before ++ s.quote.char :: s.path.toList, s.quote.char, ?_, .inl (isQuote_char _)⟩
    simp [body, hform, Form.after]

theorem isSolid_body : s.body.IsSolid := by
  obtain ⟨init, d, hbody, hd⟩ := s.exists_last
  have hstart : s.body.head?.any Text.isBlank = false := by
    rw [body]
    cases s.form <;> cases s.quote <;> rfl
  refine ⟨by simp [hbody], hstart, ?_⟩
  rw [hbody, List.getLast?_concat]
  exact hd.elim not_isBlank_of_isQuote Text.not_isBlank_of_isNamePart

private theorem text_eq :
    s.text = "import".toList ++ (" ".toList ++ (s.body ++ List.replicate s.semicolons ';')) := rfl

theorem isSolid_text : s.text.IsSolid := by
  have hword : Text.IsSolid "import".toList := by decide
  rw [text_eq]
  cases s.semicolons with
  | zero =>
    rw [List.replicate_zero, List.append_nil]
    exact hword.append s.isSolid_body _
  | succ n =>
    have hlast : Text.IsSolid [';'] := by decide
    rw [List.replicate_succ', ← List.append_assoc s.body, ← List.append_assoc " ".toList]
    exact hword.append hlast _

/-- What is read behind the first word is the body of the statement. -/
theorem tidy_body : tidy (" ".toList ++ (s.body ++ List.replicate s.semicolons ';')) = s.body := by
  obtain ⟨init, d, hbody, hd⟩ := s.exists_last
  have hsemicolon : (d == ';') = false := by
    rw [beq_eq_false_iff_ne]
    rintro rfl
    exact absurd hd (by decide)
  have hall : ∀ c ∈ List.replicate s.semicolons ';', (c == ';') = true := by
    intro c hc
    rw [List.eq_of_mem_replicate hc]
    rfl
  have hdrop : Text.dropEndWhile (· == ';') (" ".toList ++ s.body) = " ".toList ++ s.body := by
    rw [hbody, ← List.append_assoc]
    exact Text.dropEndWhile_append_cons (p := (· == ';')) hsemicolon _ []
  rw [tidy, ← List.append_assoc, Text.dropEndWhile_append_of_pos hall, hdrop]
  exact s.isSolid_body.trim_before isBlankText_space

/-- Every import statement is read back as what it says: its path, its symbols with their aliases in
order, and its name for the file. -/
theorem ofText_text : ofText s.text = .ok (some s.meaning) := by
  have hword := s.isSolid_text.trim_eq.trans s.text_eq
  have hquotes : Quotes (tidy (" ".toList ++ (s.body ++ List.replicate s.semicolons ';')))
      s.form.before s.path.toList s.form.after s.quote.char := by
    rw [tidy_body]
    exact s.quotes_body
  rw [ofText_of_quotes hword hquotes, ofParts_form, String.ofList_toList]
  rfl

-- A name may be one of the words of the statement.
example : (Statement.mk (.star ⟨"from", by decide⟩) .double "a.sol" (by decide) 1).text =
    "import * as from from \"a.sol\";".toList := by decide

end Statement

end ContractAtlas.Import
