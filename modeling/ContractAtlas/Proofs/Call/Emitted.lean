import ContractAtlas.Proofs.Call.Completion
import ContractAtlas.Proofs.Call.Detection
import ContractAtlas.Proofs.Grammar.Shape
import ContractAtlas.Proofs.Program.Code

/-! Emitted events: the invocation in an emit statement is told by the text of the statement, and
only a plain name right behind the word `emit` makes that text announce an event. -/
namespace ContractAtlas

namespace Pattern
variable {previous : Option Char} {s rest : Text}

theorem takes_opening_iff : opening.Takes previous s rest ↔
    ∃ gap, s = gap ++ ['('] ∧ gap.IsBlankText := by
  constructor
  · rintro ⟨gap, _, rfl, hgap, rfl⟩
    exact ⟨gap, rfl, hgap⟩
  · rintro ⟨gap, rfl, hgap⟩
    exact ⟨gap, ['('], rfl, hgap, rfl⟩

end Pattern

namespace Text

/-- White space does not belong to words. -/
theorem not_isWord_of_isBlank {c : Char} (h : isBlank c = true) : isWord c = false := by
  let blanks := List.range' 9 5 ++ List.range' 0x2000 11 ++
    [0x20, 0x85, 0xA0, 0x1680, 0x2028, 0x2029, 0x202F, 0x205F, 0x3000]
  have hblanks : ∀ n ∈ blanks, isWord (Char.ofNat n) = false := by decide +kernel
  have hc : c.toNat ∈ blanks := by
    simp only [isBlank, Bool.or_eq_true, Bool.and_eq_true, decide_eq_true_eq, beq_iff_eq] at h
    simp only [blanks, List.mem_append, List.mem_range'_1, List.mem_cons,
      List.not_mem_nil, or_false]
    omega
  rw [← Char.ofNat_toNat c]
  exact hblanks c.toNat hc

/-- The word `emit`, white space, a word and an opening parenthesis, perhaps behind more white
space. -/
inductive IsAnnouncement : Text → Prop
  | intro (blank name gap : Text) (hblank : blank.IsBlankText) (hsome : blank ≠ [])
      (hword : ∀ c ∈ name, isWord c = true) (hname : name ≠ []) (hgap : gap.IsBlankText) :
      IsAnnouncement ("emit".toList ++ blank ++ name ++ (gap ++ ['(']))

/-- Such an announcement stands in the text, and not behind a word character. -/
def Announces (t : Text) : Prop :=
  ∃ before s after, t = before ++ (s ++ after) ∧ IsAnnouncement s ∧
    before.getLast?.any isWord = false

theorem IsAnnouncement.isSolid {s : Text} (h : s.IsAnnouncement) : s.IsSolid := by
  obtain ⟨blank, name, gap, -, -, -, -, -⟩ := h
  have hemit : IsSolid "emit".toList := by decide
  have hopen : IsSolid ['('] := by decide
  have hsolid := hemit.append hopen (blank ++ (name ++ gap))
  simpa only [List.append_assoc] using hsolid

/-- White space around a text has no part in what it announces. -/
theorem announces_trim {t : Text} : t.trim.Announces ↔ t.Announces := by
  constructor
  · rintro ⟨before, s, after, ht, hs, hbefore⟩
    obtain ⟨left, right, he, hleft, -⟩ := t.exists_trim
    refine ⟨left ++ before, s, after ++ right, ?_, hs, ?_⟩
    · rw [he, ht]
      simp only [List.append_assoc]
    · -- what stands before the announcement may be all that was trimmed
      rw [List.getLast?_append]
      cases hlast : before.getLast? with
      | some c =>
        rw [hlast] at hbefore
        exact hbefore
      | none =>
        rw [Option.none_or, Option.any_eq_false]
        intro c hc
        exact not_isWord_of_isBlank (hleft c (List.mem_of_getLast? hc))
  · rintro ⟨before, s, after, rfl, hs, hbefore⟩
    refine ⟨before.trimStart, s, after.trimEnd, hs.isSolid.trim_around before after, hs, ?_⟩
    obtain ⟨left, hleft⟩ : before.trimStart <:+ before := List.dropWhile_suffix isBlank
    rw [← hleft, List.getLast?_append] at hbefore
    cases hlast : before.trimStart.getLast? with
    | none => rfl
    | some c =>
      rw [hlast] at hbefore
      exact hbefore

end Text

namespace CallRules

/-- The rule for events looks for announcements. -/
theorem occursIn_event_iff {t : Text} : event.occursIn t = true ↔ t.Announces := by
  rw [event, RuleSet.occursIn, List.any_cons, List.any_nil, Bool.or_false,
    Pattern.occursIn_iff_takes]
  constructor
  · rintro ⟨before, _, after, rfl, _, _, rfl,
      ⟨_, name, rfl, ⟨_, blank, rfl, htaken, hspace⟩, hplain⟩, hopening⟩
    obtain ⟨edge, _, rfl, hedge, hemit⟩ := htaken
    obtain rfl := Pattern.takes_literal_iff.1 hemit
    obtain ⟨rfl, hbefore⟩ := (Pattern.takes_wordEdge_iff (c := 'e') (by decide)).1 hedge
    obtain ⟨hsome, hblank⟩ := Pattern.takes_several_iff.1 hspace
    obtain ⟨hname, hword⟩ := Pattern.takes_several_iff.1 hplain
    obtain ⟨gap, rfl, hgap⟩ := Pattern.takes_opening_iff.1 hopening
    exact ⟨before, _, after, rfl, .intro blank name gap hblank hsome hword hname hgap, hbefore⟩
  · rintro ⟨before, _, after, rfl, ⟨blank, name, gap, hblank, hsome, hword, hname, hgap⟩, hbefore⟩
    refine ⟨before, _, after, rfl, _, _, rfl,
      ⟨_, _, rfl, ⟨_, _, rfl, ⟨[], _, rfl, ?_, ?_⟩, ?_⟩, ?_⟩, ?_⟩
    · exact (Pattern.takes_wordEdge_iff (c := 'e') (by decide)).2 ⟨rfl, hbefore⟩
    · exact Pattern.takes_literal_iff.2 rfl
    · exact Pattern.takes_several_iff.2 ⟨hsome, hblank⟩
    · exact Pattern.takes_several_iff.2 ⟨hname, hword⟩
    · exact Pattern.takes_opening_iff.2 ⟨gap, rfl, hgap⟩

end CallRules

namespace CallKind

/-- Only the rules can tell an event. -/
theorem ofRules?_of_detect_eq_event {known : NameSet} {hints : Option Hints} {t : Text}
    (h : detect known hints t = event) : ofRules? t.trim = some event := by
  cases hdecided : decided? t.trim with
  | some kind =>
    rw [detect_of_decided known hints hdecided] at h
    cases h
    rcases Option.or_eq_some_iff.1 hdecided with hrules | ⟨-, hthis⟩
    · exact hrules
    · cases (Option.ite_none_right_eq_some.1 hthis).2
  | none =>
    rw [detect_of_open known hints hdecided] at h
    have hguess : guess hints t.trim ∈
        [privateFunction, publicFunction, external, internal, unknown] := by
      cases hints with
      | none => exact List.mem_cons_of_mem _ (List.mem_cons_of_mem _ (guess_none_mem t.trim))
      | some found => exact guess_some_mem found t.trim
    split at h
    · cases h
    · rw [h] at hguess
      exact absurd hguess (by decide)

theorem eq_event_of_mem_verdicts {v : RuleSet × CallKind} (hv : v ∈ verdicts) (h : v.2 = event) :
    v.1 = CallRules.event := by
  simp only [verdicts, List.mem_cons, List.not_mem_nil, or_false] at hv
  rcases hv with rfl | rfl | rfl | rfl | rfl | rfl | rfl | rfl | rfl | rfl | rfl | rfl | rfl | rfl
    <;> cases h
  rfl

/-- Whether a text is told to be an event is up to what it announces, whatever else is known. -/
theorem detect_eq_event_iff (known : NameSet) (hints : Option Hints) (t : Text) :
    detect known hints t = event ↔ t.Announces := by
  rw [← Text.announces_trim, ← CallRules.occursIn_event_iff]
  constructor
  · intro hevent
    obtain ⟨v, hv, hoccurs, hkind⟩ := exists_verdict (ofRules?_of_detect_eq_event hevent)
    rwa [eq_event_of_mem_verdicts hv hkind] at hoccurs
  · intro hoccurs
    have hfirst : (CallRules.event, event) ∈ verdicts.take 1 := List.mem_cons_self
    obtain ⟨v, hv, hrules⟩ := exists_verdict_take hfirst hoccurs
    cases List.mem_singleton.1 hv
    exact detect_of_ofRules? known hints hrules

end CallKind

namespace Node

/-- The first child of an emit statement is a call, and if that has a kind then one that the text of
the statement tells. -/
def Told (n : Node) : Prop :=
  ∀ event, n.kind = .emit event → ∀ call ∈ n.children.head?,
    call.isCall = true ∧ ∀ kind, call.callKind? = some kind → (kind = .event ↔ n.text.Announces)

theorem told_of_kind {n : Node} (h : ∀ event, n.kind ≠ .emit event) : n.Told :=
  fun event hkind => absurd hkind (h event)

theorem told_of_childless {n : Node} (h : n.children = []) : n.Told := by
  intro event _ call hcall
  rw [h] at hcall
  cases hcall

variable {settings : Settings} {s : Scope}

theorem isCall_classifyCalls (emitted : Option Text) (n : Node) :
    (classifyCalls settings s emitted n).isCall = n.isCall := by
  rcases n with ⟨kind, span, excerpt, children⟩
  rw [classifyCalls_mk]
  cases kind <;> rfl

/-- The invocation of an event keeps the kind it has, and gets one from the text of the statement if
it has none. -/
theorem callKind?_classifyCalls {n : Node} (h : n.isCall = true) (statement : Text) :
    (classifyCalls settings s (some statement) n).callKind? =
      some (n.callKind?.getD (CallKind.detect settings.knownLibraries none statement)) := by
  rcases n with ⟨kind, span, excerpt, children⟩
  rw [classifyCalls_mk]
  cases kind with
  | call site => rfl
  | _ => cases h

theorem Told.classifyCalls {n : Node} (h : n.Told) (emitted : Option Text) :
    (classifyCalls settings s emitted n).Told := by
  rcases n with ⟨kind, span, excerpt, children⟩
  rw [classifyCalls_mk]
  cases kind with
  | emit event =>
    intro _ _ call hcall
    cases children with
    | nil => cases hcall
    | cons c cs =>
      cases hcall
      obtain ⟨hc, hkind⟩ := h event rfl c rfl
      refine ⟨(isCall_classifyCalls _ c).trans hc, fun kind hfound => ?_⟩
      have hfound := (callKind?_classifyCalls hc excerpt.text).symm.trans hfound
      cases hold : c.callKind? with
      | some old =>
        -- an earlier analysis has told it, by the same text
        rw [hold] at hfound
        cases hfound
        exact hkind old hold
      | none =>
        rw [hold] at hfound
        cases hfound
        exact CallKind.detect_eq_event_iff _ _ _
  | _ => exact told_of_kind fun _ => NodeKind.noConfusion

theorem told_classifyCalls {n : Node} (h : ∀ m ∈ n.descendants, m.Told) (emitted : Option Text) :
    ∀ m ∈ (classifyCalls settings s emitted n).descendants, m.Told := by
  induction n generalizing emitted with
  | node kind span excerpt children ih =>
    obtain ⟨hroot, hchildren⟩ := forall_mem_descendants.1 h
    refine forall_mem_descendants.2 ⟨hroot.classifyCalls emitted, fun c hc => ?_⟩
    rw [classifyCalls_mk] at hc
    obtain ⟨d, hd, e, rfl⟩ := exists_of_mem_overSiblings hc
    exact ih d hd (hchildren d hd) e

end Node

namespace Lowered
variable {s : TreeSource} {t : ParseTree}

/-- The invocation in an emit statement that was just lowered has no kind. -/
theorem Root.told {n : Node} (hn : Root s t n) (hbelow : ∀ m, Drawn s t m → m.Told) : n.Told := by
  cases hn with
  | inner h => exact hbelow n h
  | leaf h => exact Node.told_of_childless h
  | member _ hkind _ =>
    refine Node.told_of_kind fun event => ?_
    rw [hkind]
    exact NodeKind.noConfusion
  | emit invocation h hcall hfresh _ =>
    intro _ _ call hhead
    rw [h] at hhead
    cases hhead
    refine ⟨hcall, fun kind hkind => ?_⟩
    rw [hfresh] at hkind
    cases hkind
  | other _ hemit => exact Node.told_of_kind hemit

theorem told_ofTree (x : ParseTree) : ∀ m ∈ (ofTree s x).node.descendants, m.Told :=
  forall_mem_descendants_ofTree (fun _ _ _ _ => Node.told_of_kind fun _ => NodeKind.noConfusion)
    (fun _ _ _ => Node.told_of_childless rfl) (fun _ _ hn => hn.told) x

end Lowered

namespace Program

/-- After a file is loaded with an analysis, whatever was loaded before, every emit statement in the
program that invokes something invokes its event by a call that has a kind, which is that of an
event exactly if the text of the statement announces one. -/
theorem load_tells_events {loads : List (Option Settings × SourceUnit)} {settings : Settings}
    {u : SourceUnit}
    {ids : List Nat} {p : Program} (h : (enterAll {} loads).load settings u = .ok (ids, p)) :
    ∀ c ∈ p.contracts, ∀ code ∈ c.trees, ∀ n ∈ code.2.descendants, ∀ event, n.kind = .emit event →
      ∀ call ∈ n.children.head?, ∃ kind, call.callKind? = some kind ∧
        (kind = .event ↔ n.text.Announces) := by
  obtain ⟨q, hregister, rfl⟩ := load_ok h
  obtain ⟨imports, contracts, hread, rfl⟩ := register_ok hregister
  have hlowered : ∀ s x, ∀ m ∈ (Lowered.ofTree s x).node.descendants, m.Told :=
    fun _ => Lowered.told_ofTree
  have hclassified : ∀ settings s n, (∀ m ∈ n.descendants, m.Told) →
      ∀ m ∈ (Node.classifyCalls settings s none n).descendants, m.Told :=
    fun _ _ _ hn => Node.told_classifyCalls hn none
  have hbefore : (enterAll {} loads).AllCode fun n => ∀ m ∈ n.descendants, m.Told :=
    .enterAll hlowered hclassified loads
  -- the file and the analysis of this load are one more step of the same kind
  have htold := (hbefore.extended hlowered hread).analyze hclassified settings
  intro c hc code hcode n hn event hevent call hcall
  obtain ⟨hiscall, hkind⟩ := htold c hc code hcode n hn event hevent call hcall
  obtain ⟨c₀, -, rfl⟩ := List.mem_map.1 hc
  have hmem : call ∈ code.2.calls :=
    List.mem_filter.2 ⟨Node.mem_descendants_of_child hn (List.mem_of_mem_head? hcall), hiscall⟩
  obtain ⟨kind, hfound⟩ := Option.isSome_iff_exists.1 (c₀.isSome_callKind?_analyze hcode hmem)
  exact ⟨kind, hfound, hkind kind hfound⟩

end Program

namespace Sample

/-- A function that emits an event of a library. -/
def qualified : SourceUnit where
  path := "Q.sol"
  text := "contract C \x7b function f() public \x7b emit L.E(1); \x7d \x7d".toList
  tree :=
    let event := form "member_expression" 40 43
      [form "identifier" 40 41, token "." 41 42, form "identifier" 42 43]
      [("object", 0), ("property", 2)]
    let statement := form "emit_statement" 35 47
      [token "emit" 35 39, form "expression" 40 43 [event], token "(" 43 44,
        form "call_argument" 44 45 [form "expression" 44 45 [form "number_literal" 44 45]],
        token ")" 45 46, token ";" 46 47]
      [("name", 1)]
    let function := form "function_definition" 13 49
      [token "function" 13 21, form "identifier" 22 23, token "(" 23 24, token ")" 24 25,
        form "visibility" 26 32 [token "public" 26 32],
        form "function_body" 33 49
          [token "\x7b" 33 34, form "statement" 35 47 [statement], token "\x7d" 48 49]]
      [("body", 5), ("name", 1)]
    form "source_file" 0 51 [form "contract_declaration" 0 51
      [token "contract" 0 8, form "identifier" 9 10,
        form "contract_body" 11 51 [token "\x7b" 11 12, function, token "\x7d" 50 51]]
      [("body", 2), ("name", 1)]]

end Sample

namespace Program

/-- An event named by a plain word is one, whatever other file was loaded before without an
analysis. -/
theorem load_tells_events_sample :
    ∃ ids p, (enterAll {} [(none, Sample.qualified)]).load {} Sample.emitting = .ok (ids, p) ∧
      ∃ c ∈ p.contracts, ∃ code ∈ c.trees, ∃ n ∈ code.2.descendants, n.kind = .emit "E" ∧
        n.text.Announces ∧ ∃ call ∈ n.children.head?, call.callKind? = some .event := by
  have hrun : ∃ r ∈ ((enterAll {} [(none, Sample.qualified)]).load {} Sample.emitting).toOption,
      ∃ c ∈ r.2.contracts, ∃ code ∈ c.trees, ∃ n ∈ code.2.descendants, n.kind = .emit "E" ∧
        n.text = "emit E(uint(g()));".toList ∧ n.children.head?.isSome = true := by decide +kernel
  obtain ⟨r, hr, c, hc, code, hcode, n, hn, hemit, htext, hsome⟩ := hrun
  obtain ⟨call, hcall⟩ := Option.isSome_iff_exists.1 hsome
  have hload := Sample.eq_ok_of_mem_toOption hr
  have hannounces : n.text.Announces := by
    refine ⟨[], "emit E(".toList, "uint(g()));".toList, htext, ?_, rfl⟩
    exact .intro [' '] ['E'] [] (by decide) (List.cons_ne_nil _ _) (List.all_eq_true.1 (by decide))
      (List.cons_ne_nil _ _) Text.isBlankText_nil
  obtain ⟨kind, hkind, hevent⟩ := load_tells_events hload c hc code hcode n hn "E" hemit call hcall
  rw [hevent.2 hannounces] at hkind
  exact ⟨r.1, r.2, hload, c, hc, code, hcode, n, hn, hemit, hannounces, call, hcall, hkind⟩

/-- The invocation of an event of a library is of no known kind. -/
theorem qualified_event_unknown :
    ∃ ids p, ({} : Program).load {} Sample.qualified = .ok (ids, p) ∧
      ∃ f ∈ p.functions, ∃ body ∈ f.body, ∃ n ∈ body.descendants, n.kind = .emit "L.E" ∧
        ∃ call ∈ n.children.head?, call.isCall = true ∧ call.callKind? = some .unknown := by
  have hrun : ∃ r ∈ (({} : Program).load {} Sample.qualified).toOption,
      ∃ f ∈ r.2.functions, ∃ body ∈ f.body, ∃ n ∈ body.descendants, n.kind = .emit "L.E" ∧
        ∃ call ∈ n.children.head?, call.isCall = true ∧ call.callKind? = some .unknown := by
          decide +kernel
  obtain ⟨r, hr, hfound⟩ := hrun
  exact ⟨r.1, r.2, Sample.eq_ok_of_mem_toOption hr, hfound⟩

end Program

end ContractAtlas
