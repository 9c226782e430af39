import ContractAtlas.Proofs.Import.Parts

/-! Import statements read by byte offsets. Every slice that is cut from the statement lies within
it, on boundaries of characters and in order, except for what should stand between the braces: its
ends come from two searches, one forwards and one backwards, and can be the wrong way round. -/
namespace ContractAtlas

namespace Text

/-- Byte offset of the first character that satisfies the test. -/
def offsetWhere? (p : Char → Bool) (t : Text) : Option Nat :=
  if t.any p then some (byteSize (t.takeWhile fun c => !p c)) else none

/-- Byte offset of the last occurrence of the character. -/
def lastOffset? (t : Text) (c : Char) : Option Nat := (cutLast? c t).map fun cut => byteSize cut.1

/-- A byte range that is no part of the text it should have been cut from. -/
structure BadSlice where
  text : Text
  start : Nat
  stop : Nat

/-- The text of a byte range, which fails if the range is out of order or out of bounds or cuts a
character. -/
def cutOut (t : Text) (start stop : Nat) : Except BadSlice Text :=
  match t.slice? start stop with
  | some part => .ok part
  | none => .error ⟨t, start, stop⟩

theorem cutOut_middle (s t u : Text) :
    cutOut (s ++ (t ++ u)) s.byteSize (s.byteSize + t.byteSize) = .ok t := by
  rw [cutOut, slice?_append]

theorem cutOut_rest (s t : Text) : cutOut (s ++ t) s.byteSize (s ++ t).byteSize = .ok t := by
  have h := cutOut_middle s t []
  rwa [List.append_nil, ← byteSize_append] at h

theorem cutOut_start (s t : Text) : cutOut (s ++ t) 0 s.byteSize = .ok s := by
  have h := cutOut_middle [] s t
  rwa [byteSize_nil, Nat.zero_add, List.nil_append] at h

theorem cutOut_bind {α : Type} {t part : Text} {start stop : Nat}
    (h : cutOut t start stop = .ok part)
    (f : Text → Except BadSlice α) : (cutOut t start stop >>= f) = f part := by
  rw [h]
  rfl

theorem cutOut_of_lt {t : Text} {start stop : Nat} (h : stop < start) :
    cutOut t start stop = .error ⟨t, start, stop⟩ := by
  rw [cutOut, slice?, if_neg (Nat.not_le.2 h)]

end Text

namespace Import

/-! ### The quoted path -/

/-- The path in quotes with what precedes and follows it, each cut out by its byte range. -/
def quotedByOffsets (t : Text) : Except Text.BadSlice (Option (Text × Text × Text)) := do
  let some quoteAt := t.offsetWhere? isQuote | return none
  let some quote := (← t.cutOut quoteAt t.byteSize).head? | return none
  let some size := (← t.cutOut (quoteAt + 1) t.byteSize).offset? [quote] | return none
  let path ← t.cutOut (quoteAt + 1) (quoteAt + 1 + size)
  let before ← t.cutOut 0 quoteAt
  let after ← t.cutOut (quoteAt + size + 2) t.byteSize
  return some (before, path, after)

theorem utf8Size_of_isQuote {c : Char} (h : isQuote c = true) : c.utf8Size = 1 := by
  rcases isQuote_iff.1 h with rfl | rfl <;> rfl

theorem offsetWhere?_of_first {before : Text} (hbefore : ∀ c ∈ before, isQuote c = false)
    {quote : Char} (hquote : isQuote quote = true) (rest : Text) :
    Text.offsetWhere? isQuote (before ++ quote :: rest) = some before.byteSize := by
  rw [Text.offsetWhere?, takeWhile_before hbefore hquote]
  simp [hquote]

/-- Every slice around the quotes lies within the text. -/
theorem quotedByOffsets_eq (t : Text) : quotedByOffsets t = .ok (quoted? t) := by
  rcases quote_cases t with hnone | ⟨before, quote, rest, rfl, hquote, hbefore⟩
  · have hany : t.any isQuote = false := by simpa using hnone
    rw [quotedByOffsets, quoted?_of_none hnone, Text.offsetWhere?, hany]
    rfl
  have hone : Text.byteSize (before ++ [quote]) = before.byteSize + 1 := by
    simp [utf8Size_of_isQuote hquote]
  have hopen : Text.cutOut (before ++ quote :: rest) before.byteSize
      (Text.byteSize (before ++ quote :: rest)) = .ok (quote :: rest) := Text.cutOut_rest ..
  have hrest : Text.cutOut (before ++ quote :: rest) (before.byteSize + 1)
      (Text.byteSize (before ++ quote :: rest)) = .ok rest := by
    have h := Text.cutOut_rest (before ++ [quote]) rest
    rwa [hone, List.append_assoc, List.singleton_append] at h
  rw [quotedByOffsets, quoted?_of_first hbefore hquote, offsetWhere?_of_first hbefore hquote]
  dsimp only
  rw [Text.cutOut_bind hopen, List.head?_cons]
  dsimp only
  rw [Text.cutOut_bind hrest, Text.offset?]
  cases hcut : Text.cut? [quote] rest with
  | none => rfl
  | some cut =>
    obtain ⟨path, after⟩ := cut
    obtain ⟨rfl, -⟩ := Text.cut?_singleton_eq_some_iff.1 hcut
    have hpath : Text.cutOut (before ++ quote :: (path ++ quote :: after)) (before.byteSize + 1)
        (before.byteSize + 1 + path.byteSize) = .ok path := by
      have h := Text.cutOut_middle (before ++ [quote]) path (quote :: after)
      rwa [hone, List.append_assoc, List.singleton_append] at h
    have hstart : Text.cutOut (before ++ quote :: (path ++ quote :: after)) 0 before.byteSize =
        .ok before := Text.cutOut_start ..
    have hafter : Text.cutOut (before ++ quote :: (path ++ quote :: after))
        (before.byteSize + path.byteSize + 2)
        (Text.byteSize (before ++ quote :: (path ++ quote :: after))) = .ok after := by
      have h := Text.cutOut_rest (before ++ quote :: (path ++ [quote])) after
      have htwo : Text.byteSize (before ++ quote :: (path ++ [quote])) =
          before.byteSize + path.byteSize + 2 := by
        simp [utf8Size_of_isQuote hquote]
        omega
      simpa only [htwo, List.append_assoc, List.cons_append, List.nil_append] using h
    simp only [Option.map_some]
    rw [Text.cutOut_bind hpath, Text.cutOut_bind hstart, Text.cutOut_bind hafter]
    rfl

/-! ### Braces -/

/-- The import with the given text before its path and after it, the inside of the braces cut out by
its byte range. -/
def partsByOffsets (before path after : Text) : Except Text.BadSlice (Option Import) := do
  let some openAt := before.offset? ['{'] | return wholeFile before path after
  let some closeAt := before.lastOffset? '}' | return none
  let inside ← before.cutOut (openAt + 1) closeAt
  return some (picked inside path)

variable {t before path after : Text}

/-- Where the braces are not the wrong way round, the slice between them is within the text and the
answer is that of the parts. -/
theorem partsByOffsets_eq (h : ¬ Reversed before) :
    ∃ found, partsByOffsets before path after = .ok found ∧
      ofParts before path after = .ok found := by
  rw [partsByOffsets, ofParts]
  have hbraces := Braces.describes_ofText before
  generalize Braces.ofText before = b at hbraces
  cases hbraces with
  | absent hopen =>
    rw [Text.offset?, Text.cut?_singleton_eq_none_iff.2 hopen]
    exact ⟨_, rfl, rfl⟩
  | unclosed hopen hclose =>
    obtain ⟨head, tail, rfl, hhead⟩ := List.eq_append_cons_of_mem hopen
    rw [Text.offset?, Text.cut?_singleton hhead, Text.lastOffset?,
      Text.cutLast?_eq_none_iff.2 hclose]
    exact ⟨_, rfl, rfl⟩
  | @around head inside tail hfirst hlast =>
    have hclose : Text.cutLast? '}' (head ++ '{' :: (inside ++ '}' :: tail)) =
        some (head ++ '{' :: inside, tail) := Text.cutLast?_eq_some_iff.2 ⟨by simp, hlast⟩
    have hinside : Text.cutOut (head ++ '{' :: (inside ++ '}' :: tail)) (head.byteSize + 1)
        (Text.byteSize (head ++ '{' :: inside)) = .ok inside := by
      have h := Text.cutOut_middle (head ++ ['{']) inside ('}' :: tail)
      have hone : Char.utf8Size '{' = 1 := rfl
      simpa [hone, Nat.add_assoc] using h
    rw [Text.offset?, Text.cut?_singleton hfirst, Text.lastOffset?, hclose]
    simp only [Option.map_some]
    rw [Text.cutOut_bind hinside]
    exact ⟨_, rfl, rfl⟩
  | reversed hreversed => exact absurd hreversed h

/-- Where they are, the slice ends before it starts. -/
theorem partsByOffsets_of_reversed (h : Reversed before) (path after : Text) :
    ∃ bad, partsByOffsets before path after = .error bad ∧ bad.stop < bad.start ∧
      ofParts before path after = .error .reversedBraces := by
  have hfault : ofParts before path after = .error .reversedBraces := by
    rw [ofParts, Braces.ofText_of_describes (.reversed h)]
  obtain ⟨head, between, tail, rfl, hfirst, hlast⟩ := h
  have hopen := Text.cut?_singleton hfirst tail
  rw [List.append_assoc, List.cons_append] at hopen
  have hclose : Text.cutLast? '}' (head ++ '}' :: (between ++ '{' :: tail)) =
      some (head, between ++ '{' :: tail) := Text.cutLast?_eq_some_iff.2 ⟨rfl, hlast⟩
  have hlt : head.byteSize < Text.byteSize (head ++ '}' :: between) + 1 := by
    rw [Text.byteSize_append]
    omega
  have hbad : partsByOffsets (head ++ '}' :: (between ++ '{' :: tail)) path after =
      .error ⟨head ++ '}' :: (between ++ '{' :: tail), Text.byteSize (head ++ '}' :: between) + 1,
        head.byteSize⟩ := by
    rw [partsByOffsets, Text.offset?, hopen, Text.lastOffset?, hclose]
    simp only [Option.map_some]
    rw [Text.cutOut_of_lt hlt]
    rfl
  exact ⟨_, hbad, hlt, hfault⟩

/-! ### Whole statements -/

/-- Reads an import statement, cutting its parts out by their byte ranges. -/
def byOffsets (t : Text) : Except Text.BadSlice (Option Import) := do
  let some rest := Text.after? "import".toList t.trim | return none
  let some (before, path, after) := ← quotedByOffsets (tidy rest) | return none
  partsByOffsets before.trim path after.trim

/-- The statement starts with its word and has a path in quotes, and of the braces before the path
the last closing one stands before the first opening one. -/
def HasReversedBraces (t : Text) : Prop :=
  ∃ rest before path after quote, t.trim = "import".toList ++ rest ∧
    Quotes rest before path after quote ∧ Reversed before

private theorem byOffsets_of_quoted {rest : Text} (hword : t.trim = "import".toList ++ rest)
    (hquoted : quoted? (tidy rest) = some (before, path, after)) :
    byOffsets t = partsByOffsets before.trim path after.trim := by
  rw [byOffsets, Text.after?_eq_some_iff.2 hword]
  dsimp only
  rw [quotedByOffsets_eq, hquoted]
  rfl

/-- A statement that is not read as a path in quotes is no import, by parts or by offsets. -/
private theorem not_quoted (h : ∀ rest, t.trim = "import".toList ++ rest →
    quoted? (tidy rest) = none) :
    byOffsets t = .ok none ∧ ofText t = .ok none := by
  rw [byOffsets, ofText]
  cases hword : Text.after? "import".toList t.trim with
  | none => exact ⟨rfl, rfl⟩
  | some rest =>
    have hnone := h rest (Text.after?_eq_some_iff.1 hword)
    dsimp only
    rw [quotedByOffsets_eq, Option.bind_some, hnone]
    exact ⟨rfl, rfl⟩

/-- Semicolons and white space around a statement make no difference to its braces. -/
private theorem hasReversedBraces_iff {rest : Text} (hword : t.trim = "import".toList ++ rest)
    (hquoted : quoted? (tidy rest) = some (before, path, after)) :
    HasReversedBraces t ↔ Reversed before.trim := by
  constructor
  · rintro ⟨rest', before', path', after', quote, hword', hquotes, hreversed⟩
    rw [hword] at hword'
    cases List.append_cancel_left hword'
    have hsame := quoted?_eq_some_iff.2 ⟨quote, hquotes.tidy⟩
    rw [hquoted] at hsame
    cases hsame
    rw [Text.trim_trimStart]
    exact reversed_trim_iff.2 hreversed
  · intro hreversed
    obtain ⟨quote, hquotes⟩ := quoted?_eq_some_iff.1 hquoted
    obtain ⟨blank, after', hrest, hblank⟩ := hquotes.of_tidy
    refine ⟨rest, blank ++ before, path, after', quote, hword, hrest, ?_⟩
    rwa [← reversed_trim_iff, Text.trim_append_of_blank hblank]

/-- Of all the slices that reading an import statement takes, only the one between the braces can
fail. It fails exactly when the braces before the path are the wrong way round, and then because it
ends before it starts. Any other statement is read without a fault, to the answer that its parts
give. -/
theorem slice_fails_iff (t : Text) :
    ((∃ bad, byOffsets t = .error bad) ↔ HasReversedBraces t) ∧
    (∀ bad, byOffsets t = .error bad → bad.stop < bad.start ∧ ofText t = .error .reversedBraces) ∧
    (¬ HasReversedBraces t → ∃ found, byOffsets t = .ok found ∧ ofText t = .ok found) := by
  by_cases h : ∃ rest parts, t.trim = "import".toList ++ rest ∧ quoted? (tidy rest) = some parts
  · obtain ⟨rest, ⟨before, path, after⟩, hword, hquoted⟩ := h
    obtain ⟨quote, hquotes⟩ := quoted?_eq_some_iff.1 hquoted
    rw [byOffsets_of_quoted hword hquoted, ofText_of_quotes hword hquotes,
      hasReversedBraces_iff hword hquoted]
    by_cases hreversed : Reversed before.trim
    · obtain ⟨bad, hbad, hlt, hfault⟩ := partsByOffsets_of_reversed hreversed path after.trim
      refine ⟨iff_of_true ⟨bad, hbad⟩ hreversed,
        fun bad' hbad' => ?_, fun hnot => absurd hreversed hnot⟩
      rw [hbad] at hbad'
      cases hbad'
      exact ⟨hlt, hfault⟩
    · obtain ⟨found, hfound, hparts⟩ := @partsByOffsets_eq _ path after.trim hreversed
      rw [hfound]
      refine ⟨iff_of_false ?_ hreversed, fun bad hbad => ?_, fun _ => ⟨found, rfl, hparts⟩⟩
      · rintro ⟨bad, hbad⟩
        cases hbad
      · cases hbad
  · have hnone : ∀ rest, t.trim = "import".toList ++ rest → quoted? (tidy rest) = none := by
      intro rest hword
      cases hquoted : quoted? (tidy rest) with
      | none => rfl
      | some parts => exact absurd ⟨rest, parts, hword, hquoted⟩ h
    obtain ⟨hoffsets, hparts⟩ := not_quoted hnone
    have hbraces : ¬ HasReversedBraces t := by
      rintro ⟨rest, before, path, after, quote, hword, hquotes, -⟩
      exact h ⟨rest, _, hword, quoted?_eq_some_iff.2 ⟨quote, hquotes.tidy⟩⟩
    rw [hoffsets]
    refine ⟨iff_of_false ?_ hbraces, fun bad hbad => ?_, fun _ => ⟨none, rfl, hparts⟩⟩
    · rintro ⟨bad, hbad⟩
      cases hbad
    · cases hbad

theorem slice_fails_sample :
    ∃ bad, byOffsets "import \x7d as \x7b from 'a.sol';".toList = .error bad ∧
      bad.stop < bad.start := by
  have hbraces : HasReversedBraces "import \x7d as \x7b from 'a.sol';".toList :=
    ⟨" \x7d as \x7b from 'a.sol';".toList, " \x7d as \x7b from ".toList,
      "a.sol".toList, [';'], '\'', by decide, ⟨by decide, by decide, by simp [isQuote], by decide⟩,
      ⟨[' '], " as ".toList, " from ".toList, by decide, by decide, by decide⟩⟩
  obtain ⟨bad, hbad⟩ := (slice_fails_iff _).1.2 hbraces
  exact ⟨bad, hbad, ((slice_fails_iff _).2.1 bad hbad).1⟩

end Import

end ContractAtlas
