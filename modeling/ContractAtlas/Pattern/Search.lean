import ContractAtlas.Pattern.Basic

/-! Finding patterns in a text. One sweep from the end of the text to its start keeps, for every
part of the pattern, the match of that part and all that follows it; the work is the size of the
pattern times the length of the text. The sweep finds at every place what the pattern matches
there. -/
namespace ContractAtlas

/-- What is left of a pattern, each part with its match at the current place. -/
inductive Plan
  | accept
  | one (accepts : Char → Bool) (next : Plan) (found : Option Found)
  | many (accepts : Char → Bool) (next : Plan) (found : Option Found)
  | few (accepts : Char → Bool) (next : Plan) (found : Option Found)
  | alt (first second : Plan) (found : Option Found)
  | look (holds : Option Char → Option Char → Bool) (next : Plan) (found : Option Found)
  /-- The start or the end of a group. -/
  | mark (change : Found → Found) (next : Plan) (found : Option Found)

namespace Plan

/-- The match at the current place. -/
def found : Plan → Option Found
  | accept => some {}
  | one _ _ f | many _ _ f | few _ _ f | alt _ _ f | look _ _ f | mark _ _ f => f

/-- The match that takes the character `next` and goes on with `later`. -/
def extend (accepts : Char → Bool) (next : Option Char) (later : Option Found) : Option Found :=
  match later, next with
  | some f, some c => if accepts c then some (f.push c) else none
  | _, _ => none

/-- Goes from the place after the character `next`, or from nowhere at the end of the text, to the
place before it. -/
def move (previous next : Option Char) : Plan → Plan
  | accept => accept
  | one accepts k _ =>
    let f := extend accepts next k.found
    one accepts (k.move previous next) f
  | many accepts k later =>
    let f := extend accepts next later
    let k := k.move previous next
    many accepts k (f.or k.found)
  | few accepts k later =>
    let f := extend accepts next later
    let k := k.move previous next
    few accepts k (k.found.or f)
  | alt p q _ =>
    let p := p.move previous next
    let q := q.move previous next
    alt p q (p.found.or q.found)
  | look holds k _ =>
    let k := k.move previous next
    look holds k (k.found.filter fun _ => holds previous next)
  | mark change k _ =>
    let k := k.move previous next
    mark change k (k.found.map change)

/-- The matches at the places within `before`, which is read backwards, followed by `later`. -/
def sweep (before : Text) (next : Option Char) (plan : Plan) (later : List (Option Found)) :
    List (Option Found) :=
  let plan := plan.move before.head? next
  let later := plan.found :: later
  match before with
  | [] => later
  | c :: before => sweep before (some c) plan later

end Plan

namespace Pattern

/-- The pattern followed by a plan, before any place is reached. -/
def plan : Pattern → Plan → Plan
  | nothing, k => k
  | exactly c, k => .one (· == c) k none
  | one accepts, k => .one accepts k none
  | many accepts, k => .many accepts k none
  | few accepts, k => .few accepts k none
  | seq p q, k => p.plan (q.plan k)
  | alt p q, k => .alt (p.plan k) (q.plan k) none
  | group p, k => .mark Found.startGroup (p.plan (.mark Found.endGroup k none)) none
  | look holds, k => .look holds k none

/-- The preferred match at every place of the text, from its start to its end. -/
def results (p : Pattern) (t : Text) : List (Option Found) :=
  (p.plan .accept).sweep t.reverse none []

/-- Characters without which nothing matches. -/
def needs : Pattern → List Char
  | exactly c => [c]
  | seq p q => p.needs ++ q.needs
  | alt p q => p.needs.filter q.needs.contains
  | group p => p.needs
  | _ => []

/-- The preferred match at the first place of the text that has one. -/
def find? (p : Pattern) (t : Text) : Option Found :=
  if p.needs.all (List.contains t) then (p.results t).findSome? id else none

/-- Whether the pattern matches somewhere in the text. -/
def occursIn (p : Pattern) (t : Text) : Bool := (p.find? t).isSome

/-- The first group of the first match, trimmed, unless that leaves nothing. -/
def capture? (p : Pattern) (t : Text) : Option Text := do
  let found ← p.find? t
  let first ← found.groups.head?
  if first.trim.isEmpty then none else some first.trim

/-- Number of matches of a pattern that takes at least one character, each starting where the last
one ended or later. -/
def count (p : Pattern) (t : Text) : Nat := go 0 (p.results t)
where
  go : Nat → List (Option Found) → Nat
    | _, [] => 0
    | skip + 1, _ :: later => go skip later
    | 0, none :: later => go 0 later
    | 0, some found :: later => go (found.whole.length - 1) later + 1

end Pattern

namespace Plan

/-- What a plan matches at a place, whatever it has noted. -/
def matchAt? : Plan → Cursor → Option Found
  | accept => fun _ => some {}
  | one accepts k _ => Pattern.step accepts k.matchAt?
  | many accepts k _ => fun c => Pattern.greedy accepts k.matchAt? c.previous c.rest
  | few accepts k _ => fun c => Pattern.lazy accepts k.matchAt? c.previous c.rest
  | alt p q _ => fun c => (p.matchAt? c).or (q.matchAt? c)
  | look holds k _ => fun c => if holds c.previous c.rest.head? then k.matchAt? c else none
  | mark change k _ => fun c => (k.matchAt? c).map change

theorem matchAt?_plan (p : Pattern) (k : Plan) : (p.plan k).matchAt? = p.run k.matchAt? := by
  induction p generalizing k with
  | seq p q hp hq => rw [Pattern.plan, hp, hq, Pattern.run]
  | alt p q hp hq => simp only [Pattern.plan, matchAt?, hp, hq, Pattern.run]
  | group p hp => simp only [Pattern.plan, matchAt?, hp, Pattern.run]
  | _ => rfl

@[simp] theorem matchAt?_move (plan : Plan) (previous next : Option Char) :
    (plan.move previous next).matchAt? = plan.matchAt? := by
  induction plan with
  | accept => rfl
  | alt p q _ hp hq => simp only [move, matchAt?, hp, hq]
  | one _ _ _ h | many _ _ _ h | few _ _ _ h | look _ _ _ h | mark _ _ _ h =>
    simp only [move, matchAt?, h]

/-- Every part of the plan has noted what it matches at the place. -/
def IsAt (c : Cursor) : Plan → Prop
  | accept => True
  | one accepts k f => f = (one accepts k f).matchAt? c ∧ k.IsAt c
  | many accepts k f => f = (many accepts k f).matchAt? c ∧ k.IsAt c
  | few accepts k f => f = (few accepts k f).matchAt? c ∧ k.IsAt c
  | alt p q f => f = (alt p q f).matchAt? c ∧ p.IsAt c ∧ q.IsAt c
  | look holds k f => f = (look holds k f).matchAt? c ∧ k.IsAt c
  | mark change k f => f = (mark change k f).matchAt? c ∧ k.IsAt c

theorem IsAt.found_eq {c : Cursor} {plan : Plan} (h : plan.IsAt c) :
    plan.found = plan.matchAt? c := by
  cases plan with
  | accept => rfl
  | _ => exact h.1

private theorem extend_nil (accepts : Char → Bool) (f : Option Found) :
    extend accepts none f = none := by
  cases f <;> rfl

private theorem extend_cons (accepts : Char → Bool) (d : Char) (f : Option Found) :
    extend accepts (some d) f = if accepts d then f.map (·.push d) else none := by
  cases f <;> simp [extend]

private theorem filter_const (b : Bool) (f : Option Found) :
    (f.filter fun _ => b) = if b then f else none := by
  cases f <;> cases b <;> rfl

/-- A plan that has noted its matches at the next place, if there is one, moves to a place. -/
theorem isAt_move (plan : Plan) (c : Cursor)
    (h : ∀ d t, c.rest = d :: t → plan.IsAt ⟨some d, t⟩) :
    (plan.move c.previous c.rest.head?).IsAt c := by
  obtain ⟨previous, rest⟩ := c
  induction plan with
  | accept => trivial
  | one accepts k f ih =>
    refine ⟨?_, ih fun d t e => (h d t e).2⟩
    cases rest with
    | nil => simp [matchAt?, Pattern.step, extend_nil]
    | cons d t => simp [matchAt?, Pattern.step, extend_cons, (h d t rfl).2.found_eq]
  | many accepts k f ih =>
    have hk := ih fun d t e => (h d t e).2
    refine ⟨?_, hk⟩
    rw [hk.found_eq]
    cases rest with
    | nil => simp [matchAt?, Pattern.greedy, extend_nil]
    | cons d t =>
      rw [(h d t rfl).1]
      by_cases hd : accepts d <;> simp [matchAt?, Pattern.greedy, extend_cons, hd]
  | few accepts k f ih =>
    have hk := ih fun d t e => (h d t e).2
    refine ⟨?_, hk⟩
    rw [hk.found_eq]
    cases rest with
    | nil => simp [matchAt?, Pattern.lazy, extend_nil]
    | cons d t =>
      rw [(h d t rfl).1]
      by_cases hd : accepts d <;> simp [matchAt?, Pattern.lazy, extend_cons, hd]
  | alt p q f hp hq =>
    have hp := hp fun d t e => (h d t e).2.1
    have hq := hq fun d t e => (h d t e).2.2
    exact ⟨by simp [matchAt?, hp.found_eq, hq.found_eq], hp, hq⟩
  | look holds k f ih =>
    have hk := ih fun d t e => (h d t e).2
    exact ⟨by simp [matchAt?, hk.found_eq, filter_const], hk⟩
  | mark change k f ih =>
    have hk := ih fun d t e => (h d t e).2
    exact ⟨by simp [matchAt?, hk.found_eq], hk⟩

/-- The places within `before`, which is read backwards and followed by `t`. -/
def leading : (before t : Text) → List Cursor
  | [], t => [⟨none, t⟩]
  | c :: before, t => leading before (c :: t) ++ [⟨some c, t⟩]

private theorem sweep_eq (before t : Text) (plan : Plan) (later : List (Option Found))
    (h : ∀ d u, t = d :: u → plan.IsAt ⟨some d, u⟩) :
    plan.sweep before t.head? later = (leading before t).map plan.matchAt? ++ later := by
  induction before generalizing t plan later with
  | nil =>
    have hf := (isAt_move plan ⟨none, t⟩ h).found_eq
    rw [matchAt?_move] at hf
    simp [sweep, leading, ← hf]
  | cons c before ih =>
    have hm := isAt_move plan ⟨some c, t⟩ h
    have hf := hm.found_eq
    rw [matchAt?_move] at hf
    have hs := ih (c :: t) (plan.move (some c) t.head?) (plan.matchAt? ⟨some c, t⟩ :: later) (by
      intro d u e
      obtain ⟨rfl, rfl⟩ := List.cons.inj e
      exact hm)
    rw [matchAt?_move] at hs
    simp only [sweep, List.head?_cons, leading, List.map_append, List.append_assoc]
    rw [hf]
    exact hs

private theorem places_eq (before t : Text) :
    Cursor.places none (before.reverse ++ t) =
      leading before t ++ (Cursor.places before.head? t).tail := by
  induction before generalizing t with
  | nil => cases t <;> rfl
  | cons c before ih =>
    have h := ih (c :: t)
    simp only [List.reverse_cons, List.append_assoc, List.singleton_append, h, leading]
    cases t <;> rfl

end Plan

namespace Pattern

/-- The sweep finds at every place what the pattern matches there. -/
theorem results_eq (p : Pattern) (t : Text) :
    p.results t = (Cursor.places none t).map p.matchAt? := by
  have hs := Plan.sweep_eq t.reverse [] (p.plan .accept) [] (by simp)
  have hp := Plan.places_eq t.reverse []
  have hm : (p.plan .accept).matchAt? = p.matchAt? := Plan.matchAt?_plan p .accept
  simp only [List.reverse_reverse, List.append_nil, Cursor.places, List.tail_cons] at hp
  rw [List.head?_nil, hm, List.append_nil, ← hp] at hs
  exact hs

private theorem step_ends {accepts : Char → Bool} {next : Cursor → Option Found} {c : Cursor}
    {f : Found} (h : step accepts next c = some f) :
    (∃ d ∈ c.rest, accepts d) ∧ ∃ e g, next e = some g ∧ e.rest <:+ c.rest := by
  obtain ⟨previous, rest⟩ := c
  cases rest with
  | nil => simp [step] at h
  | cons d t =>
    by_cases hd : accepts d
    · simp only [step, hd, if_true, Option.map_eq_some_iff] at h
      obtain ⟨g, hg, _⟩ := h
      exact ⟨⟨d, List.mem_cons_self, hd⟩, _, g, hg, List.suffix_cons d t⟩
    · simp [step, hd] at h

private theorem greedy_ends {accepts : Char → Bool} {next : Cursor → Option Found} {t : Text}
    {previous : Option Char} {f : Found} (h : greedy accepts next previous t = some f) :
    ∃ e g, next e = some g ∧ e.rest <:+ t := by
  induction t generalizing previous f with
  | nil => exact ⟨_, f, h, List.suffix_refl _⟩
  | cons c t ih =>
    by_cases hc : accepts c
    · simp only [greedy, hc, if_true, Option.or_eq_some_iff, Option.map_eq_some_iff] at h
      rcases h with ⟨g, hg, _⟩ | ⟨_, hn⟩
      · obtain ⟨e, g, hn, hs⟩ := ih hg
        exact ⟨e, g, hn, hs.trans (List.suffix_cons c t)⟩
      · exact ⟨_, f, hn, List.suffix_refl _⟩
    · simp only [greedy, hc] at h
      exact ⟨_, f, h, List.suffix_refl _⟩

private theorem lazy_ends {accepts : Char → Bool} {next : Cursor → Option Found} {t : Text}
    {previous : Option Char} {f : Found} (h : lazy accepts next previous t = some f) :
    ∃ e g, next e = some g ∧ e.rest <:+ t := by
  induction t generalizing previous f with
  | nil => exact ⟨_, f, h, List.suffix_refl _⟩
  | cons c t ih =>
    by_cases hc : accepts c
    · simp only [lazy, hc, if_true, Option.or_eq_some_iff, Option.map_eq_some_iff] at h
      rcases h with hn | ⟨_, g, hg, _⟩
      · exact ⟨_, f, hn, List.suffix_refl _⟩
      · obtain ⟨e, g, hn, hs⟩ := ih hg
        exact ⟨e, g, hn, hs.trans (List.suffix_cons c t)⟩
    · simp only [lazy, hc] at h
      exact ⟨_, f, h, List.suffix_refl _⟩

/-- Where a pattern and what follows it match, the text holds what the pattern needs, and what
follows matches at this place or later. -/
private theorem run_ends {p : Pattern} {next : Cursor → Option Found} {c : Cursor} {f : Found}
    (h : p.run next c = some f) :
    (∀ d ∈ p.needs, d ∈ c.rest) ∧ ∃ e g, next e = some g ∧ e.rest <:+ c.rest := by
  induction p generalizing next c f with
  | nothing => exact ⟨by simp [needs], c, f, h, List.suffix_refl _⟩
  | exactly d =>
    obtain ⟨⟨e, he, hd⟩, hn⟩ := step_ends h
    exact ⟨by simpa [needs, ← eq_of_beq hd] using he, hn⟩
  | one accepts => exact ⟨by simp [needs], (step_ends h).2⟩
  | many accepts => exact ⟨by simp [needs], greedy_ends h⟩
  | few accepts => exact ⟨by simp [needs], lazy_ends h⟩
  | seq p q hp hq =>
    obtain ⟨hpn, d, g, hd, hds⟩ := hp h
    obtain ⟨hqn, e, k, he, hes⟩ := hq hd
    refine ⟨fun x hx => ?_, e, k, he, hes.trans hds⟩
    rcases List.mem_append.1 hx with hx | hx
    · exact hpn x hx
    · exact hds.subset (hqn x hx)
  | alt p q hp hq =>
    rcases Option.or_eq_some_iff.1 h with h | ⟨_, h⟩
    · exact ⟨fun x hx => (hp h).1 x (List.mem_filter.1 hx).1, (hp h).2⟩
    · exact ⟨fun x hx => (hq h).1 x (by simpa using (List.mem_filter.1 hx).2), (hq h).2⟩
  | group p hp =>
    obtain ⟨g, hg, _⟩ := Option.map_eq_some_iff.1 h
    obtain ⟨hn, e, k, he, hes⟩ := hp hg
    obtain ⟨k, he, _⟩ := Option.map_eq_some_iff.1 he
    exact ⟨hn, e, k, he, hes⟩
  | look holds =>
    by_cases hh : holds c.previous c.rest.head?
    · simp only [run, hh, if_true] at h
      exact ⟨by simp [needs], c, f, h, List.suffix_refl _⟩
    · simp [run, hh] at h

private theorem suffix_of_mem_places {previous : Option Char} {t : Text} {c : Cursor}
    (h : c ∈ Cursor.places previous t) : c.rest <:+ t := by
  induction t generalizing previous with
  | nil => simp_all [Cursor.places]
  | cons d t ih =>
    rcases List.mem_cons.1 h with rfl | h
    · exact List.suffix_refl _
    · exact (ih h).trans (List.suffix_cons d t)

/-- The first match is the match at the first place that has one. -/
theorem find?_eq (p : Pattern) (t : Text) :
    p.find? t = (Cursor.places none t).findSome? p.matchAt? := by
  by_cases hn : p.needs.all (List.contains t)
  · rw [find?, if_pos hn, results_eq, List.findSome?_map, Function.id_comp]
  · rw [find?, if_neg hn, eq_comm, List.findSome?_eq_none_iff]
    intro c hc
    cases hm : p.matchAt? c with
    | none => rfl
    | some f =>
      refine absurd (List.all_eq_true.2 fun d hd => ?_) hn
      simpa using (suffix_of_mem_places hc).subset ((run_ends hm).1 d hd)

theorem occursIn_iff (p : Pattern) (t : Text) :
    p.occursIn t ↔ ∃ c ∈ Cursor.places none t, (p.matchAt? c).isSome := by
  rw [occursIn, find?_eq, List.isSome_findSome?, List.any_eq_true]

end Pattern

end ContractAtlas
