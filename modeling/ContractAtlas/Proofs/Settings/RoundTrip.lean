import ContractAtlas.Proofs.Settings.Scanning

/-! Settings survive their text form: the written document holds every field once, in order, and is
read back as the same settings. -/
namespace ContractAtlas.Settings

/-! ### The document -/

/-- The tokens of a list of names, up to its closing bracket. -/
def nameTokens (names : List String) : List Token :=
  [Token.comma].intercalate (names.map fun name => [.text name.toList]) ++ [.closeBracket]

def Value.tokens : Value → List Token
  | .number n => [.number n.toNat]
  | .names s => .openBracket :: nameTokens s.names

/-- The tokens of one field. -/
def entry (s : Settings) (f : Field) : List Token :=
  .text f.key.toList :: .colon :: (s.get f).tokens

/-- The tokens of the object with all fields. -/
def document (s : Settings) : List Token :=
  .openBrace :: ([Token.comma].intercalate (Field.all.map s.entry) ++ [.closeBrace])

open Token

theorem spells_glue : Spells [',', '\n'] [.comma] := fun _ => rfl

theorem spells_nameLine (name : String) : Spells (nameLine name) [.text name.toList] := by
  have hindent : Spells "    ".toList [] := fun _ => rfl
  exact hindent.append (spells_quote name.toList)

theorem spellsOpen_value (v : Value) : SpellsOpen v.render v.tokens := by
  cases v with
  | number n => exact spellsOpen_toDigits n.toNat
  | names s =>
    apply Spells.isOpen
    rw [Value.render, Value.tokens]
    split
    · rename_i hempty
      rw [List.isEmpty_iff.1 hempty]
      exact fun _ => rfl
    · have hopen : Spells "[\n".toList [.openBracket] := fun _ => rfl
      have hnames := spellsOpen_join (by decide) spells_glue s.names
        fun name _ => (spells_nameLine name).isOpen
      exact (hopen.append_open hnames).append (c := '\n') (u := "  ]".toList)
        (by decide) fun _ => rfl

theorem spellsOpen_fieldLine (s : Settings) (f : Field) :
    SpellsOpen (s.fieldLine f) (s.entry f) := by
  have hindent : Spells "  ".toList [] := fun _ => rfl
  have hcolon : Spells ": ".toList [.colon] := fun _ => rfl
  exact ((hindent.append (spells_quote f.key.toList)).append hcolon).append_open
    (spellsOpen_value (s.get f))

theorem spells_render (s : Settings) : Spells s.render s.document := by
  have hopen : Spells "\x7b\n".toList [.openBrace] := fun _ => rfl
  have hfields := spellsOpen_join (by decide) spells_glue Field.all
    fun f _ => s.spellsOpen_fieldLine f
  exact (hopen.append_open hfields).append (c := '\n') (u := "\x7d".toList) (by decide) fun _ => rfl

theorem scan?_render (s : Settings) : scan? s.render = some s.document := by
  rw [scan?, show s.render.foldlM step {} = _ from s.spells_render []]
  show some (s.document.reverse ++ []).reverse = _
  rw [List.append_nil, List.reverse_reverse]

/-! ### Reading it -/

namespace Reading

/-- Names are collected up to the bracket, latest first. -/
theorem foldlM_nameTokens (r : Reading) (f : Field) (names done : List String) (mayClose : Bool)
    (hclose : names = [] → mayClose = true) :
    (nameTokens names).foldlM step { r with place := .name f done mayClose } =
      r.assign f (.names (.ofList (names.reverse ++ done))) := by
  induction names generalizing done mayClose with
  | nil =>
    rw [hclose rfl]
    exact bind_pure _
  | cons name names ih =>
    have hname : step { r with place := .name f done mayClose } (.text name.toList) =
        some { r with place := .nameEnd f (name :: done) } := by
      simp only [step, String.ofList_toList]
    rw [List.reverse_cons, List.append_assoc]
    cases names with
    | nil =>
      show ([Token.text name.toList] ++ [Token.closeBracket]).foldlM step _ = _
      rw [List.foldlM_append, List.foldlM_cons, hname]
      exact bind_pure (r.assign f (.names (.ofList (name :: done))))
    | cons next names =>
      have hrest := ih (name :: done) false fun h => absurd h (List.cons_ne_nil _ _)
      show ([Token.text name.toList] ++ (.comma :: nameTokens (next :: names))).foldlM step _ = _
      rw [List.foldlM_append, List.foldlM_cons, hname]
      exact hrest

theorem foldlM_value (r : Reading) (f : Field) (v : Value) :
    v.tokens.foldlM step { r with place := .value f } = r.assign f v := by
  cases v with
  | number n =>
    have hnumber : stepValue { r with place := .value f } f (.number n.toNat) =
        r.assign f (.number n) := by
      rw [stepValue, if_pos n.toNat_lt_size, UInt64.ofNat_toNat]
      rfl
    rw [Value.tokens, List.foldlM_cons]
    exact (congrArg (· >>= pure) hnumber).trans (bind_pure _)
  | names s =>
    have hset : NameSet.ofList (s.names.reverse ++ []) = s :=
      NameSet.eq_of_contains fun name => by
        rw [NameSet.contains_ofList, List.append_nil, NameSet.contains, List.contains_reverse]
    exact (foldlM_nameTokens r f s.names [] true fun _ => rfl).trans (by rw [hset])

variable {s cfg : Settings} {seen : List Field}

theorem foldlM_entry {f : Field} (hf : f ∉ seen) (mayClose : Bool) :
    (s.entry f).foldlM step ⟨.entry mayClose, .byKey seen, cfg⟩ =
      (cfg.set? f (s.get f)).map fun after => ⟨.entryEnd, .byKey (f :: seen), after⟩ := by
  have hkey : step ⟨.entry mayClose, .byKey seen, cfg⟩ (.text f.key.toList) =
      some ⟨.colon f, .byKey (f :: seen), cfg⟩ := by
    simp [step, stepEntry, hf]
  rw [entry, List.foldlM_cons, hkey]
  exact foldlM_value ⟨.colon f, .byKey (f :: seen), cfg⟩ f (s.get f)

/-- The entries set their fields one after the other. -/
theorem foldlM_entries {fields : List Field} (hfields : fields ≠ []) (hnodup : fields.Nodup)
    (hseen : ∀ f ∈ fields, f ∉ seen) (mayClose : Bool) :
    ([Token.comma].intercalate (fields.map s.entry)).foldlM step
      ⟨.entry mayClose, .byKey seen, cfg⟩ =
      (fields.foldlM (fun before f => set? before f (s.get f)) cfg).map
        fun after => ⟨.entryEnd, .byKey (fields.reverse ++ seen), after⟩ := by
  induction fields generalizing seen cfg mayClose with
  | nil => exact absurd rfl hfields
  | cons f fields ih =>
    have hentry := @foldlM_entry s cfg seen f (hseen f List.mem_cons_self) mayClose
    rw [List.foldlM_cons]
    cases fields with
    | nil =>
      show (s.entry f ++ []).foldlM step _ = _
      rw [List.append_nil, hentry]
      exact congrArg _ (bind_pure _).symm
    | cons g fields =>
      rw [List.nodup_cons] at hnodup
      have hrest : ∀ h ∈ g :: fields, h ∉ f :: seen := fun h hh hmem =>
        (List.mem_cons.1 hmem).elim (fun he => hnodup.1 (he ▸ hh))
          (hseen h (List.mem_cons_of_mem _ hh))
      show (s.entry f ++ (.comma :: [Token.comma].intercalate ((g :: fields).map s.entry))).foldlM
        step _ = _
      rw [List.foldlM_append, hentry, List.reverse_cons, List.append_assoc]
      cases cfg.set? f (s.get f) with
      | none => rfl
      | some after => exact ih (List.cons_ne_nil g fields) hnodup.2 hrest false

end Reading

/-- Setting every field leaves nothing of what was there. -/
theorem foldlM_set?_get (s cfg : Settings) :
    Field.all.foldlM (fun before f => set? before f (s.get f)) cfg = some s := rfl

theorem foldlM_document (s : Settings) :
    s.document.foldlM Reading.step {} = some ⟨.finished, .byKey Field.all.reverse, s⟩ := by
  have hentries := @Reading.foldlM_entries s {} [] Field.all (by decide) (by decide)
    (fun _ _ => List.not_mem_nil) true
  rw [foldlM_set?_get, List.append_nil] at hentries
  have hopen : Reading.step {} .openBrace = some ⟨.entry true, .byKey [], {}⟩ := rfl
  rw [document, List.foldlM_cons, hopen, Option.bind_eq_bind, Option.bind_some, List.foldlM_append,
    hentries]
  rfl

/-- All settings, whatever their numbers and names, are written as an object with every field and
read back from it as they were. -/
theorem read?_render (s : Settings) :
    scan? s.render = some s.document ∧ read? s.render = some s := by
  refine ⟨s.scan?_render, ?_⟩
  rw [read?, scan?_render]
  show (s.document.foldlM Reading.step {} >>= _) = _
  rw [foldlM_document]
  rfl

end ContractAtlas.Settings
