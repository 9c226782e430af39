import ContractAtlas.Call.Detection
import ContractAtlas.Proofs.Pattern.Meaning
import ContractAtlas.Proofs.Text.Trim

/-! How the kind of a call comes from its text and from hints. A raw call is never hidden by what
else the text looks like, and hints only refine what the text leaves open. -/
namespace ContractAtlas

namespace Pattern

theorem takesAnywhere_selects (name : String) {c : Char} (hc : c = '(' ∨ c = '{') :
    (selects name).TakesAnywhere ('.' :: (name.toList ++ [c])) := by
  have hopen : (c == '(' || c == '{') = true := by simpa using hc
  exact ((takesAnywhere_exactly '.').append (takesAnywhere_literal name)).append
    (takesAnywhere_gap.append (takesAnywhere_one hopen))

theorem demands_selects (name : String) : (selects name).Demands name.toList :=
  ((demands_literal name).right _).left _

theorem demands_callOf (name : String) : (callOf name).Demands name.toList :=
  ((demands_literal name).right _).left _

theorem demands_assemblyHead : assemblyHead.Demands "assembly".toList :=
  ((((demands_literal "assembly").right _).left _).left _).left _

end Pattern

namespace RuleSet
variable {t : Text}

/-- A rule set whose first rule looks for a member finds it where it is called or given call
options. -/
theorem occursIn_of_selects {title rule name : String} {rules : List Rule} {c : Char}
    (hc : c = '(' ∨ c = '{') (h : '.' :: (name.toList ++ [c]) <:+: t) :
    occursIn ⟨title, ⟨rule, .selects name⟩ :: rules⟩ t = true := by
  have hfound := (Pattern.takesAnywhere_selects name hc).occursIn h
  exact List.any_eq_true.2 ⟨_, List.mem_cons_self, hfound⟩

theorem isInfix_of_occursIn {s : RuleSet} {w : Text} (hw : ∀ r ∈ s.rules, r.pattern.Demands w)
    (h : s.occursIn t = true) : w <:+: t := by
  obtain ⟨r, hr, hoccurs⟩ := List.any_eq_true.1 h
  exact (hw r hr).isInfix_of_occursIn hoccurs

end RuleSet

namespace CallKind
variable {t : Text} {kind : CallKind}

/-! ### Verdicts of the rules -/

theorem exists_verdict (h : ofRules? t = some kind) :
    ∃ v ∈ verdicts, v.1.occursIn t = true ∧ v.2 = kind := by
  obtain ⟨v, hfound, hkind⟩ := Option.map_eq_some_iff.1 h
  have hoccurs := List.find?_some hfound
  exact ⟨v, List.mem_of_find?_eq_some hfound, hoccurs, hkind⟩

/-- If one of the first rule sets matches, then one of them decides. -/
theorem exists_verdict_take {n : Nat} {v : RuleSet × CallKind} (hv : v ∈ verdicts.take n)
    (h : v.1.occursIn t = true) : ∃ u ∈ verdicts.take n, ofRules? t = some u.2 := by
  have hfirst : ((verdicts.take n).find? fun v => v.1.occursIn t).isSome = true :=
    List.find?_isSome.2 ⟨v, hv, h⟩
  obtain ⟨u, hfound⟩ := Option.isSome_iff_exists.1 hfirst
  refine ⟨u, List.mem_of_find?_eq_some hfound, ?_⟩
  rw [ofRules?, ← List.take_append_drop n verdicts, List.find?_append, hfound]
  rfl

/-- The word without which no text is a call of this kind by the rules. -/
def keyword? : CallKind → Option String
  | event => some "emit"
  | assembly => some "assembly"
  | delegate => some "delegatecall"
  | static => some "staticcall"
  | _ => none

/-- Every rule behind a verdict demands the keyword of that verdict. -/
theorem demands_keyword {v : RuleSet × CallKind} (hv : v ∈ verdicts) {word : String}
    (hword : v.2.keyword? = some word) : ∀ r ∈ v.1.rules, r.pattern.Demands word.toList := by
  simp only [verdicts, List.mem_cons, List.not_mem_nil, or_false] at hv
  rcases hv with rfl | rfl | rfl | rfl | rfl | rfl | rfl | rfl | rfl | rfl | rfl | rfl | rfl | rfl
    <;> cases hword
  · -- event
    refine List.forall_mem_singleton.2 ?_
    exact ((((Pattern.demands_literal "emit").right _).left _).left _).left _
  · -- assemblyDelegate
    refine List.forall_mem_cons.2 ⟨(Pattern.demands_callOf _).right _,
      List.forall_mem_singleton.2 ?_⟩
    exact ((Pattern.demands_literal "delegatecall").right _).left _
  · -- assemblyStatic
    refine List.forall_mem_cons.2 ⟨(Pattern.demands_callOf _).right _,
      List.forall_mem_singleton.2 ?_⟩
    exact ((Pattern.demands_literal "staticcall").right _).left _
  · -- assembly
    exact List.forall_mem_singleton.2 (Pattern.demands_assemblyHead.left _)
  · -- delegate
    exact List.forall_mem_singleton.2 (Pattern.demands_selects _)
  · -- static
    exact List.forall_mem_singleton.2 (Pattern.demands_selects _)

theorem keyword_isInfix {word : String} (h : ofRules? t = some kind)
    (hword : kind.keyword? = some word) :
    word.toList <:+: t := by
  obtain ⟨v, hv, hoccurs, rfl⟩ := exists_verdict h
  exact RuleSet.isInfix_of_occursIn (demands_keyword hv hword) hoccurs

/-! ### Raw calls -/

/-- Pieces of text that make a raw call on an address. -/
def rawCalls : List String :=
  [".call(", ".call\x7b", ".delegatecall(", ".delegatecall\x7b", ".staticcall(", ".staticcall\x7b",
    ".send("]

/-- Each of the pieces makes a rule set for raw calls match. -/
theorem occursIn_of_rawCall {piece : String} (hpiece : piece ∈ rawCalls) (h : piece.toList <:+: t) :
    CallRules.delegate.occursIn t = true ∨ CallRules.static.occursIn t = true ∨
      CallRules.lowLevel.occursIn t = true := by
  simp only [rawCalls, List.mem_cons, List.not_mem_nil, or_false] at hpiece
  rcases hpiece with rfl | rfl | rfl | rfl | rfl | rfl | rfl
  · exact .inr (.inr (RuleSet.occursIn_of_selects (.inl rfl) h))
  · exact .inr (.inr (RuleSet.occursIn_of_selects (.inr rfl) h))
  · exact .inl (RuleSet.occursIn_of_selects (.inl rfl) h)
  · exact .inl (RuleSet.occursIn_of_selects (.inr rfl) h)
  · exact .inr (.inl (RuleSet.occursIn_of_selects (.inl rfl) h))
  · exact .inr (.inl (RuleSet.occursIn_of_selects (.inr rfl) h))
  · have hsend : (Pattern.exactly '.' ++ Pattern.literal "send" ++ Pattern.opening).occursIn t =
        true :=
      (((Pattern.takesAnywhere_exactly '.').append (Pattern.takesAnywhere_literal "send")).append
        (Pattern.takesAnywhere_gap.append (Pattern.takesAnywhere_exactly '('))).occursIn h
    exact .inr (.inr (List.any_eq_true.2 ⟨_, List.mem_cons_of_mem _ List.mem_cons_self, hsend⟩))

theorem detect_of_ofRules? (known : NameSet) (hints : Option Hints)
    (h : ofRules? t.trim = some kind) :
    detect known hints t = kind := by
  simp only [detect, h]

/-- Whatever else the text looks like and whatever is known about the call: a text with one of the
pieces of a raw call in it is a call of one of five kinds, and the word that goes with the kind is
in the text. -/
theorem raw_call_never_hidden (known : NameSet) (hints : Option Hints) (t : Text) {piece : String}
    (hpiece : piece ∈ rawCalls) (h : piece.toList <:+: t) :
    detect known hints t ∈ [event, delegate, static, assembly, lowLevel] ∧
      ∀ word, (detect known hints t).keyword? = some word → word.toList <:+: t := by
  have hsolid : ∀ piece ∈ rawCalls, Text.IsSolid piece.toList := by decide
  have hrules : ∃ v ∈ verdicts.take 7, v.1.occursIn t.trim = true := by
    rcases occursIn_of_rawCall hpiece ((hsolid piece hpiece).isInfix_trim h) with h | h | h
    · exact ⟨(CallRules.delegate, delegate), by simp [verdicts], h⟩
    · exact ⟨(CallRules.static, static), by simp [verdicts], h⟩
    · exact ⟨(CallRules.lowLevel, lowLevel), by simp [verdicts], h⟩
  obtain ⟨v, hv, hoccurs⟩ := hrules
  obtain ⟨u, hu, hkind⟩ := exists_verdict_take hv hoccurs
  rw [detect_of_ofRules? known hints hkind]
  refine ⟨?_, fun word hword => (keyword_isInfix hkind hword).trans t.trim_isInfix⟩
  have hkinds : ∀ kind ∈ (verdicts.take 7).map Prod.snd,
      kind ∈ [event, delegate, static, assembly, lowLevel] := by decide
  exact hkinds u.2 (List.mem_map_of_mem hu)

/-- A cast, a creation and a known library at once, and yet the raw call shows. -/
theorem raw_call_never_hidden_sample :
    let source := " new Vault(IERC20(token).call(data)) ".toList
    ".call(" ∈ rawCalls ∧ ".call(".toList <:+: source ∧
      detect (.ofList ["Vault"]) (some { isLibraryCall := true }) source ∈
        [event, delegate, static, assembly, lowLevel] := by
  intro source
  have hpiece : ".call(" ∈ rawCalls := by decide
  have hin : ".call(".toList <:+: source :=
    ⟨" new Vault(IERC20(token)".toList, "data)) ".toList, by decide⟩
  exact ⟨hpiece, hin, (raw_call_never_hidden _ _ source hpiece hin).1⟩

/-! ### Hints -/

/-- What the text decides whatever the hints are. -/
def decided? (t : Text) : Option CallKind :=
  (ofRules? t).or (if "this.".toList.isPrefixOf t then some internal else none)

/-- What is said of a text that decides nothing and is no library call. -/
def guess (hints : Option Hints) (t : Text) : CallKind := (hints.bind ofHints?).getD (ofShape t)

theorem detect_of_decided (known : NameSet) (hints : Option Hints)
    (h : decided? t.trim = some kind) :
    detect known hints t = kind := by
  rw [decided?] at h
  rw [detect]
  cases hrules : ofRules? t.trim with
  | some k =>
    rw [hrules] at h
    exact Option.some.inj h
  | none =>
    rw [hrules, Option.none_or] at h
    obtain ⟨hthis, hkind⟩ := Option.ite_none_right_eq_some.1 h
    cases hkind
    exact if_pos hthis

theorem detect_of_open (known : NameSet) (hints : Option Hints) (h : decided? t.trim = none) :
    detect known hints t =
      if isLibraryCall known hints t.trim then library else guess hints t.trim := by
  obtain ⟨hrules, hthis⟩ := Option.or_eq_none_iff.1 h
  have hthis : ¬ "this.".toList.isPrefixOf t.trim = true := by simpa using hthis
  simp only [detect, hrules, if_neg hthis]
  rfl

theorem ofHints?_mem {h : Hints} (hkind : ofHints? h = some kind) :
    kind ∈ [privateFunction, publicFunction, external, internal] := by
  rcases h with ⟨_ | visibility, _, _, isExternal, isSame⟩
  · cases isExternal <;> cases isSame <;> cases hkind <;> decide
  · cases visibility <;> cases hkind <;> decide

theorem guess_none_mem (t : Text) : guess none t ∈ [external, internal, unknown] := by
  show ofShape t ∈ _
  rw [ofShape]
  split
  · decide
  · split <;> decide

theorem guess_some_mem (h : Hints) (t : Text) :
    guess (some h) t ∈ [privateFunction, publicFunction, external, internal] ++ [unknown] := by
  show (ofHints? h).getD (ofShape t) ∈ _
  cases hkind : ofHints? h with
  | none => exact List.mem_cons_of_mem _ (List.mem_cons_of_mem _ (guess_none_mem t))
  | some kind => exact List.mem_append_left _ (ofHints?_mem hkind)

/-- More hints that a call is one of a library do not make it any other. -/
theorem isLibraryCall_mono {known : NameSet} {hints more : Option Hints}
    (hflag : hints.any Hints.isLibraryCall = true → more.any Hints.isLibraryCall = true)
    (hnames : ∀ name, (hints.any fun h => h.libraries.contains name) = true →
      (more.any fun h => h.libraries.contains name) = true)
    (h : isLibraryCall known hints t = true) : isLibraryCall known more t = true := by
  rw [isLibraryCall, Bool.or_eq_true] at h ⊢
  refine h.imp hflag fun hcall => ?_
  cases hfound : Shapes.libraryCall.find? t with
  | none =>
    rw [hfound] at hcall
    cases hcall
  | some found =>
    simp only [hfound, Bool.and_eq_true, Bool.or_eq_true] at hcall ⊢
    exact ⟨hcall.1, hcall.2.imp_right (hnames _)⟩

/-- Hints only refine what the text leaves open: they keep every kind but an external, internal or
unknown call, they never bring about a kind that the text alone has to show, and more names of
libraries keep a call of a library what it is. -/
theorem hints_only_refine (known : NameSet) (h : Hints) (t : Text) :
    (detect known none t ∉ [external, internal, unknown] →
      detect known (some h) t = detect known none t) ∧
    (detect known (some h) t ∈ [event, delegate, static, assembly, lowLevel, builtin, conversion] ∨
        (detect known (some h) t).isCreation = true →
      detect known none t = detect known (some h) t) ∧
    (∀ more : NameSet, (∀ name, h.libraries.contains name = true → more.contains name = true) →
      detect known (some h) t = library →
        detect known (some { h with libraries := more }) t = library) := by
  cases hdecided : decided? t.trim with
  | some kind =>
    have hkind : ∀ hints, detect known hints t = kind := fun hints =>
      detect_of_decided known hints hdecided
    rw [hkind, hkind]
    exact ⟨fun _ => rfl, fun _ => rfl, fun more _ hlibrary => (hkind _).trans hlibrary⟩
  | none =>
    simp only [detect_of_open known _ hdecided]
    refine ⟨fun hkind => ?_, fun hkind => ?_, fun more hmore hkind => ?_⟩
    · by_cases hnone : isLibraryCall known none t.trim = true
      · have hsome : isLibraryCall known (some h) t.trim = true :=
          isLibraryCall_mono (fun hf => by cases hf) (fun _ hf => by cases hf) hnone
        rw [if_pos hnone, if_pos hsome]
      · rw [if_neg hnone] at hkind
        exact absurd (guess_none_mem t.trim) hkind
    · exfalso
      revert hkind
      split
      · decide
      · have hguess := guess_some_mem h t.trim
        revert hguess
        cases guess (some h) t.trim <;> decide
    · have hlibrary : isLibraryCall known (some h) t.trim = true := by
        by_contra hother
        rw [if_neg hother] at hkind
        have hguess := guess_some_mem h t.trim
        rw [hkind] at hguess
        revert hguess
        decide
      refine if_pos (isLibraryCall_mono ?_ ?_ hlibrary)
      · exact id
      · exact hmore

/-- A hint turns an external call into one of a library, which it stays when there are more
libraries; a check of the language is none of the hint's business. -/
theorem hints_only_refine_sample :
    let h : Hints := { visibility := some .internally, libraries := .ofList ["SafeMath"] }
    let more : NameSet := .ofList ["SafeMath", "Strings"]
    let sum := "SafeMath.add(a, b)".toList
    let check := "require(SafeMath.add(a, b) > c)".toList
    detect ∅ none sum = external ∧ detect ∅ (some h) sum = library ∧
      detect ∅ (some { h with libraries := more }) sum = library ∧
      detect ∅ none check = builtin ∧ detect ∅ (some h) check = builtin := by
  intro h more sum check
  have hsum : detect ∅ none sum = external ∧ detect ∅ (some h) sum = library := by decide +kernel
  have hcheck : detect ∅ none check = builtin := by decide +kernel
  have hmore : ∀ name, h.libraries.contains name = true → more.contains name = true := by
    intro name hname
    simp only [h, more, NameSet.contains_ofList, List.contains_cons] at hname ⊢
    rw [Bool.or_eq_true] at hname ⊢
    exact hname.imp_right fun hnone => by cases hnone
  refine ⟨hsum.1, hsum.2, (hints_only_refine ∅ h sum).2.2 more hmore hsum.2, hcheck, ?_⟩
  rw [(hints_only_refine ∅ h check).1 (by rw [hcheck]; decide), hcheck]

end CallKind

end ContractAtlas
