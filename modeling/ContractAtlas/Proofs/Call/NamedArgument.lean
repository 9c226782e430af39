import ContractAtlas.Call.Facts
import ContractAtlas.Proofs.Entries
import ContractAtlas.Proofs.Pattern.Groups
import ContractAtlas.Proofs.Text.Cutting
import ContractAtlas.Proofs.Text.Identifier

/-! Arguments given by name. They are read back from the text of their call exactly when no value
has a comma and no name has a dollar sign: the text between the braces is divided at every comma,
also at those inside a value, and names are read as words. -/
namespace ContractAtlas

namespace Text

/-- Whether parentheses and brackets balance, when the closing ones in `awaited` are still to come,
and every comma lies inside some of them. -/
def nests : (awaited : List Char) → Text → Bool
  | awaited, [] => awaited.isEmpty
  | awaited, '(' :: t => nests (')' :: awaited) t
  | awaited, '[' :: t => nests (']' :: awaited) t
  | awaited, c :: t =>
    if c == ')' || c == ']' then awaited.head? == some c && nests awaited.tail t
    else if c == ',' then !awaited.isEmpty && nests awaited t
    else nests awaited t

theorem join_append (glue s first : Text) (pieces : List Text) :
    join glue ((s ++ first) :: pieces) = s ++ join glue (first :: pieces) := by
  cases pieces with
  | nil => rw [join_singleton, join_singleton]
  | cons second pieces => rw [join_cons_cons, join_cons_cons, List.append_assoc]

/-- What follows the first character of the glue can be counted to the pieces. -/
theorem join_cons_glue (c : Char) (glue first : Text) (pieces : List Text) :
    join (c :: glue) (first :: pieces) = join [c] (first :: pieces.map (glue ++ ·)) := by
  induction pieces generalizing first with
  | nil => rw [List.map_nil, join_singleton, join_singleton]
  | cons second pieces ih =>
    rw [List.map_cons, join_cons_cons, join_cons_cons, ih, join_append, ← List.append_assoc [c]]
    rfl

end Text

/-- An argument given by name. Its value is one line without braces and quotes, in which parentheses
and brackets balance and all commas lie inside them. -/
structure NamedArgument where
  key : Identifier
  value : Text
  solid : value.IsSolid
  oneLine : '\n' ∉ value
  unbraced : '{' ∉ value ∧ '}' ∉ value
  unquoted : '"' ∉ value ∧ '\'' ∉ value
  nests : value.nests [] = true

namespace NamedArgument

def text (a : NamedArgument) : Text := a.key.text ++ ':' :: ' ' :: a.value

def entry (a : NamedArgument) : Text × Text := (a.key.text, a.value)

/-- The arguments as they stand between the braces. -/
def listText (args : List NamedArgument) : Text := Text.join [',', ' '] (args.map text)

/-- A call of `f` with the arguments. -/
def callText (f : Identifier) (args : List NamedArgument) : Text :=
  f.text ++ '(' :: '{' :: (listText args ++ ['}', ')'])

/-! ### The list between the braces -/

theorem not_mem_text {a : NamedArgument} {c : Char} (hkey : Text.isNamePart c = false)
    (hglue : c ∉ [' ', ':']) (hvalue : c ∉ a.value) : c ∉ a.text := by
  intro h
  rcases List.mem_append.1 h with h | h
  · exact a.key.not_mem hkey h
  · rcases List.mem_cons.1 h with rfl | h
    · exact hglue (by decide)
    · rcases List.mem_cons.1 h with rfl | h
      · exact hglue (by decide)
      · exact hvalue h

theorem not_mem_listText {args : List NamedArgument} {c : Char} (hkey : Text.isNamePart c = false)
    (hglue : c ∉ [',', ' ', ':']) (hvalue : ∀ a ∈ args, c ∉ a.value) : c ∉ listText args := by
  intro h
  rcases Text.mem_join h with h | ⟨piece, hpiece, hc⟩
  · exact hglue (List.mem_append_left [':'] h)
  · obtain ⟨a, ha, rfl⟩ := List.mem_map.1 hpiece
    exact not_mem_text hkey (fun h => hglue (List.mem_cons_of_mem _ h)) (hvalue a ha) hc

/-- Without a comma in a value, the list is divided into its arguments, all but the first one behind
a space. -/
theorem splitAt_listText {a : NamedArgument} {args : List NamedArgument}
    (h : ∀ b ∈ a :: args, ',' ∉ b.value) :
    Text.splitAt ',' (listText (a :: args)) = a.text :: args.map ([' '] ++ text ·) := by
  have htext : ∀ b ∈ a :: args, ',' ∉ b.text :=
    fun b hb => not_mem_text (by decide) (by decide) (h b hb)
  rw [listText, List.map_cons, Text.join_cons_glue, List.map_map, Text.splitAt_join]
  · rfl
  · refine List.forall_mem_cons.2 ⟨htext a List.mem_cons_self, fun piece hpiece => ?_⟩
    obtain ⟨b, hb, rfl⟩ := List.mem_map.1 hpiece
    exact List.not_mem_cons_of_ne_of_not_mem (by decide) (htext b (List.mem_cons_of_mem _ hb))

/-! ### One argument -/

open Pattern in
/-- White space up to the end of the text is nowhere before the last other character. -/
private theorem run_gap_textEnd_eq_none {next : Cursor → Option Found}
    {previous : Option Char} {t : Text}
    (ht : ¬ t.IsBlankText) : gap.run (textEnd.run next) ⟨previous, t⟩ = none := by
  refine Option.eq_none_iff_forall_ne_some.2 fun f hf => ?_
  obtain ⟨s, rest, -, g, rfl, ⟨hblank, -⟩, hend, -⟩ := reads_of_run hf
  obtain ⟨hrest, -⟩ := Option.ite_none_right_eq_some.1 hend
  have hnil : rest = [] := List.head?_eq_none_iff.1 (Option.isNone_iff_eq_none.1 hrest)
  rw [hnil, List.append_nil] at ht
  exact ht hblank

open Pattern in
/-- A value without a line feed is taken as a whole, for what is left of it never is white space
only. -/
private theorem prefers_value {v : Text} (hv : v.IsSolid) (hline : '\n' ∉ v)
    {previous : Option Char} :
    (group (one (· != '\n') ++ few (· != '\n'))).Prefers
      (gap.run (textEnd.run fun _ => some {})) previous v []
      [v] := by
  obtain ⟨c, s, rfl⟩ := List.exists_cons_of_ne_nil hv.ne_nil
  have haccepts : ∀ d ∈ c :: s, (d != '\n') = true :=
    fun d hd => bne_iff_ne.2 fun h => hline (h ▸ hd)
  obtain ⟨hc, hs⟩ := List.forall_mem_cons.1 haccepts
  apply Prefers.group
  have hfirst : ∀ next rest, (one (· != '\n')).Prefers next previous [c] rest [] :=
    fun _ _ => prefers_one hc
  refine (hfirst _ _).append (prefers_few hs ?_ rfl)
  rintro taken left rfl hleft
  have hsolid : Text.IsSolid ((c :: taken) ++ left) := hv
  show Option.map Found.endGroup _ = none
  rw [List.append_nil, run_gap_textEnd_eq_none (hsolid.not_isBlankText_right hleft)]
  rfl

theorem isWord_of_mem_key {a : NamedArgument} (hkey : '$' ∉ a.key.text) :
    ∀ c ∈ a.key.text, Text.isWord c = true := by
  intro c hc
  have hpart := a.key.isNamePart_of_mem hc
  have hdollar : (c == '$') = false := beq_eq_false_iff_ne.2 fun h => hkey (h ▸ hc)
  rw [Text.isNamePart, hdollar, Bool.or_false] at hpart
  rw [Text.isWord, hpart, Bool.true_or]

open Pattern in
/-- An argument whose name is a word is read as it stands. -/
theorem find?_text {blank : Text} (hblank : blank.IsBlankText) (a : NamedArgument)
    (hkey : '$' ∉ a.key.text) :
    Shapes.namedArgument.find? (blank ++ a.text) =
      some { whole := blank ++ a.text, groups := [a.key.text, a.value] } := by
  have hkeyHead : ∀ rest, ((a.key.text ++ rest).head?.any Text.isBlank) = false := fun rest => by
    rw [List.head?_append_of_ne_nil _ a.key.ne_nil]
    exact a.key.isSolid.start
  have hvalueHead : ∀ rest, ((a.value ++ rest).head?.any Text.isBlank) = false := fun rest => by
    rw [List.head?_append_of_ne_nil _ a.solid.ne_nil]
    exact a.solid.start
  have hspace : Text.IsBlankText [' '] := by decide
  have hmatch : Shapes.namedArgument.Prefers (fun _ => some {}) none
      ([] ++ blank ++ a.key.text ++ [] ++ [':'] ++ [' '] ++ a.value ++ [] ++ []) []
      ([] ++ [] ++ [a.key.text] ++ [] ++ [] ++ [] ++ [a.value] ++ [] ++ []) := by
    refine .append
      (.append (.append (.append (.append (.append (.append (.append (prefers_look rfl) ?_) ?_) ?_)
      ?_) ?_) ?_) ?_) (prefers_look rfl)
    · exact prefers_many hblank (hkeyHead _)
    · exact .group (prefers_several a.key.ne_nil (isWord_of_mem_key hkey) rfl)
    · exact prefers_many (List.forall_mem_nil _) rfl
    · exact prefers_exactly ':'
    · exact prefers_many hspace (hvalueHead _)
    · exact prefers_value a.solid a.oneLine
    · exact prefers_many (List.forall_mem_nil _) rfl
  have htext : [] ++ blank ++ a.key.text ++ [] ++ [':'] ++ [' '] ++ a.value ++ [] ++ [] =
      blank ++ a.text := by
    simp [text]
  rw [htext] at hmatch
  have hfound := hmatch.matchAt?_eq
  rw [List.append_nil] at hfound
  exact find?_of_matchAt? hfound

/-! ### All arguments -/

open Pattern in
/-- The braces are found, whatever the name of the function is, and between them the list as it
stands. -/
theorem find?_callText (f : Identifier) (args : List NamedArgument) :
    ∃ whole, Shapes.namedArguments.find? (callText f args) =
      some { whole := whole, groups := [listText args] } := by
  have hbefore : ∀ d ∈ f.text, ∀ previous u,
      Shapes.namedArguments.matchAt? ⟨previous, d :: u⟩ = none := by
    intro d hd previous u
    have hparenthesis : d ≠ '(' := fun h => f.not_mem (by decide) (h ▸ hd)
    exact if_neg (mt eq_of_beq hparenthesis)
  have hbraces : ∀ c ∈ listText args, isNoneOf ['{', '}'] c = true := by
    intro c hc
    have hopening : '{' ∉ listText args :=
      not_mem_listText (by decide) (by decide) fun a _ => a.unbraced.1
    have hclosing : '}' ∉ listText args :=
      not_mem_listText (by decide) (by decide) fun a _ => a.unbraced.2
    have hc₁ : c ≠ '{' := fun h => hopening (h ▸ hc)
    have hc₂ : c ≠ '}' := fun h => hclosing (h ▸ hc)
    simp [isNoneOf, hc₁, hc₂]
  have hmatch : Shapes.namedArguments.Prefers (fun _ => some {}) f.text.getLast?
      (['('] ++ [] ++ ['{'] ++ listText args ++ ['}'] ++ [] ++ [')'] ++ [] ++ []) []
      ([] ++ [] ++ [] ++ [listText args] ++ [] ++ [] ++ [] ++ [] ++ []) := by
    refine .append
      (.append (.append (.append (.append (.append (.append (.append (prefers_exactly '(') ?_)
      (prefers_exactly '{')) ?_) (prefers_exactly '}')) ?_) (prefers_exactly ')')) ?_)
      (prefers_look rfl)
    · exact prefers_many (List.forall_mem_nil _) rfl
    · exact .group (prefers_many hbraces rfl)
    · exact prefers_many (List.forall_mem_nil _) rfl
    · exact prefers_many (List.forall_mem_nil _) rfl
  have htext : ['('] ++ [] ++ ['{'] ++ listText args ++ ['}'] ++ [] ++ [')'] ++ [] ++ [] =
      '(' :: '{' :: (listText args ++ ['}', ')']) := by
    simp
  rw [htext] at hmatch
  have hfound := hmatch.matchAt?_eq
  rw [List.append_nil] at hfound
  exact ⟨_, find?_append hbefore hfound⟩

/-- The name and the value that are read from a piece of the list. -/
def entryIn? (piece : Text) : Option (Text × Text) := do
  let found ← Shapes.namedArgument.find? piece
  let key ← found.groups[0]?
  let value ← found.groups[1]?
  return (key, value)

theorem namedArgumentsIn_callText (f : Identifier) (args : List NamedArgument) :
    CallFacts.namedArgumentsIn (callText f args) =
      Entries.ofList ((Text.splitAt ',' (listText args)).filterMap entryIn?) := by
  obtain ⟨whole, hfound⟩ := find?_callText f args
  rw [CallFacts.namedArgumentsIn, hfound]
  rfl

theorem entryIn?_text {blank : Text} (hblank : blank.IsBlankText) {a : NamedArgument}
    (hkey : '$' ∉ a.key.text) :
    entryIn? (blank ++ a.text) = some a.entry := by
  rw [entryIn?, find?_text hblank a hkey]
  rfl

open Pattern in
/-- A match has two groups, and the first of them is a word. -/
private theorem groups_of_reads {previous : Option Char} {s rest : Text} {groups : List Text}
    (h : Shapes.namedArgument.Reads previous s rest groups) :
    ∃ key value, groups = [key, value] ∧ ∀ c ∈ key, Text.isWord c = true := by
  -- From the last part of the shape to the first one.
  obtain ⟨_, _, _, _, -, rfl, h, -, -, rfl⟩ := h
  obtain ⟨_, _, _, _, -, rfl, h, -, rfl⟩ := h
  obtain ⟨_, value, _, _, -, rfl, h, _, rfl, _, _, _, _, -, rfl, ⟨-, rfl⟩, -, rfl⟩ := h
  obtain ⟨_, _, _, _, -, rfl, h, -, rfl⟩ := h
  obtain ⟨_, _, _, _, -, rfl, h, -, rfl⟩ := h
  obtain ⟨_, _, _, _, -, rfl, h, -, rfl⟩ := h
  obtain ⟨_, key, _, _, -, rfl, h, _, rfl, _, rest, _, _, hkey, rfl, ⟨⟨c, rfl, hc⟩, rfl⟩,
    hrest, rfl⟩ := h
  obtain ⟨_, _, _, _, -, rfl, ⟨-, -, rfl⟩, -, rfl⟩ := h
  refine ⟨key, value, rfl, ?_⟩
  rw [hkey]
  exact List.forall_mem_cons.2 ⟨hc, hrest⟩

open Pattern in
/-- Whatever is read from a piece, its name is a word, and its value lies within the piece. -/
theorem of_entryIn?_eq_some {piece : Text} {e : Text × Text} (h : entryIn? piece = some e) :
    (∀ c ∈ e.1, Text.isWord c = true) ∧ e.2 <:+: piece := by
  obtain ⟨found, hfound, h⟩ := Option.bind_eq_some_iff.1 h
  obtain ⟨key, hkey, h⟩ := Option.bind_eq_some_iff.1 h
  obtain ⟨value, hvalue, h⟩ := Option.bind_eq_some_iff.1 h
  cases h
  obtain ⟨before, after, hpiece, hreads⟩ := reads_of_find? hfound
  constructor
  · obtain ⟨word, _, hgroups, hword⟩ := groups_of_reads hreads
    rw [hgroups] at hkey
    cases hkey
    exact hword
  · rw [hpiece]
    exact (hreads.isInfix_of_mem (List.mem_of_getElem? hvalue)).trans
      ⟨before, after, List.append_assoc ..⟩

/-- The arguments of a call are read back exactly when no name has a dollar sign and no value has a
comma. -/
theorem namedArgumentsIn_eq_iff (f : Identifier) (args : List NamedArgument)
    (hkeys : (args.map (·.key.text)).Nodup) :
    CallFacts.namedArgumentsIn (callText f args) = args.map entry ↔
      ∀ a ∈ args, '$' ∉ a.key.text ∧ ',' ∉ a.value := by
  rw [namedArgumentsIn_callText]
  constructor
  · intro h a ha
    -- Nothing that is read has a comma in its value, for it comes from one of the pieces.
    have hmem : a.entry ∈ args.map entry := List.mem_map_of_mem ha
    rw [← h] at hmem
    obtain ⟨piece, hpiece, hread⟩ := List.mem_filterMap.1 (Entries.mem_of_mem_ofList hmem)
    obtain ⟨hword, hvalue⟩ := of_entryIn?_eq_some hread
    refine ⟨fun hdollar => ?_, fun hcomma => ?_⟩
    · exact absurd (hword '$' hdollar) (by decide)
    · exact Text.not_mem_of_mem_splitAt hpiece (hvalue.subset hcomma)
  · intro h
    cases args with
    | nil => decide
    | cons a args =>
      rw [splitAt_listText fun b hb => (h b hb).2]
      have hfirst : entryIn? a.text = some a.entry :=
        entryIn?_text Text.isBlankText_nil (h a List.mem_cons_self).1
      have hrest : (args.map ([' '] ++ text ·)).filterMap entryIn? = args.map entry := by
        rw [List.filterMap_map, ← List.filterMap_eq_map]
        refine List.filterMap_congr fun b hb => ?_
        exact entryIn?_text (by decide) (h b (List.mem_cons_of_mem _ hb)).1
      rw [List.filterMap_cons_some hfirst, hrest, ← List.map_cons]
      refine Entries.ofList_of_nodup ?_
      rwa [List.map_map]

end NamedArgument

namespace Sample

def caller : Identifier := ⟨"f", by decide⟩

/-- A call with two arguments as a value. -/
def pairArgument : NamedArgument :=
  ⟨⟨"a", by decide⟩, "g(x, y)".toList, by decide, by decide, by decide, by decide, by decide⟩

/-- An element of a call's result as a value. -/
def elementArgument : NamedArgument :=
  ⟨⟨"b", by decide⟩, "g(x)[h(1)]".toList, by decide, by decide, by decide, by decide, by decide⟩

def dollarArgument : NamedArgument :=
  ⟨⟨"$c", by decide⟩, "1".toList, by decide, by decide, by decide, by decide, by decide⟩

end Sample

namespace NamedArgument

theorem namedArgumentsIn_eq_iff_sample :
    CallFacts.namedArgumentsIn (callText Sample.caller [Sample.elementArgument]) =
      [Sample.elementArgument.entry] ∧
      CallFacts.namedArgumentsIn
        (callText Sample.caller [Sample.elementArgument, Sample.pairArgument]) ≠
        [Sample.elementArgument.entry, Sample.pairArgument.entry] := by
  constructor
  · refine (namedArgumentsIn_eq_iff Sample.caller [Sample.elementArgument] (by decide)).2 ?_
    exact List.forall_mem_singleton.2 (by decide)
  · intro h
    have hall :=
      (namedArgumentsIn_eq_iff Sample.caller [Sample.elementArgument, Sample.pairArgument]
        (by decide)).1 h
    exact (hall Sample.pairArgument (List.mem_cons_of_mem _ List.mem_cons_self)).2 (by decide)

/-- A value ends at the first comma inside it, and an argument whose name has a dollar sign is not
read. -/
theorem value_ends_at_comma :
    callText Sample.caller [Sample.pairArgument] = "f(\x7ba: g(x, y)\x7d)".toList ∧
      CallFacts.namedArgumentsIn (callText Sample.caller [Sample.pairArgument]) =
        [("a".toList, "g(x".toList)] ∧
      Sample.pairArgument.entry = ("a".toList, "g(x, y)".toList) ∧
      CallFacts.namedArgumentsIn (callText Sample.caller [Sample.dollarArgument]) = [] := by
  decide +kernel

end NamedArgument

end ContractAtlas
