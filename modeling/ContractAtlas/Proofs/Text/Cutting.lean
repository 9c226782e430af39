import ContractAtlas.Proofs.Text.Occurrence

/-! Cutting a text at one of its characters, at a piece of text whose first character comes nowhere
earlier, behind its first word or before its last one, or at every comma. -/
namespace ContractAtlas.Text

/-- A piece of text is found at the first occurrence of its first character if it stands there. -/
theorem cut?_of_head_not_mem {c : Char} {s : Text} (h : c ∉ s) (word t : Text) :
    cut? (c :: word) (s ++ (c :: word ++ t)) = some (s, t) := by
  induction s with
  | nil =>
    rw [List.nil_append, List.cons_append, cut?, if_pos (by simp)]
    simp
  | cons d s ih =>
    rw [List.mem_cons, not_or] at h
    rw [List.cons_append, cut?, if_neg (by simp [h.1]), ih h.2]
    rfl

theorem cut?_eq_none_of_not_mem {c : Char} {word t : Text} (hc : c ∈ word) (h : c ∉ t) :
    cut? word t = none := by
  cases hcut : cut? word t with
  | none => rfl
  | some cut =>
    refine absurd ?_ h
    rw [eq_of_cut? hcut]
    simp [hc]

theorem cut?_singleton_eq_some_iff {c : Char} {t before after : Text} :
    cut? [c] t = some (before, after) ↔ t = before ++ c :: after ∧ c ∉ before := by
  constructor
  · intro h
    have ht := eq_of_cut? h
    refine ⟨ht, fun hmem => ?_⟩
    -- An occurrence within `before` would have been found first.
    obtain ⟨first, rest, rfl, hfirst⟩ := List.eq_append_cons_of_mem hmem
    have hcut := cut?_singleton hfirst (rest ++ c :: after)
    rw [ht, List.append_assoc] at h
    have hbefore := congrArg Prod.fst (Option.some.inj (hcut.symm.trans h))
    exact hfirst (by rw [show first = first ++ c :: rest from hbefore]; simp)
  · rintro ⟨rfl, h⟩
    exact cut?_singleton h after

theorem cut?_singleton_eq_none_iff {c : Char} {t : Text} : cut? [c] t = none ↔ c ∉ t := by
  constructor
  · intro h hmem
    obtain ⟨before, after, rfl, hbefore⟩ := List.eq_append_cons_of_mem hmem
    rw [cut?_singleton hbefore] at h
    cases h
  · exact cut?_eq_none_of_not_mem List.mem_cons_self

theorem cutLast?_eq_some_iff {c : Char} {t before after : Text} :
    cutLast? c t = some (before, after) ↔ t = before ++ c :: after ∧ c ∉ after := by
  rw [cutLast?, Option.map_eq_some_iff]
  constructor
  · rintro ⟨cut, hcut, he⟩
    cases he
    obtain ⟨ht, hfirst⟩ := cut?_singleton_eq_some_iff.1 hcut
    refine ⟨?_, by rwa [List.mem_reverse]⟩
    rw [← List.reverse_reverse t, ht]
    simp
  · rintro ⟨rfl, h⟩
    refine ⟨(after.reverse, before.reverse), ?_, by simp⟩
    have hcut := cut?_singleton (mt List.mem_reverse.1 h) before.reverse
    simpa using hcut

theorem cutLast?_eq_none_iff {c : Char} {t : Text} : cutLast? c t = none ↔ c ∉ t := by
  rw [cutLast?, Option.map_eq_none_iff, cut?_singleton_eq_none_iff, List.mem_reverse]

theorem contains_singleton {c : Char} {t : Text} : contains t [c] = true ↔ c ∈ t :=
  contains_iff.trans (List.singleton_infix_iff c t)

theorem after?_eq_some_iff {head t rest : Text} : after? head t = some rest ↔ t = head ++ rest := by
  rw [after?, Option.ite_none_right_eq_some, List.isPrefixOf_iff_prefix]
  constructor
  · rintro ⟨⟨rest', rfl⟩, h⟩
    rw [List.drop_left] at h
    rw [Option.some.inj h]
  · rintro rfl
    exact ⟨List.prefix_append _ _, by rw [List.drop_left]⟩

theorem before?_append (s t : Text) : before? t (s ++ t) = some s := by
  rw [before?, if_pos (List.isSuffixOf_iff_suffix.2 (List.suffix_append s t))]
  simp

theorem join_singleton (glue piece : Text) : join glue [piece] = piece := by
  simp [join]

theorem join_cons_cons (glue first second : Text) (pieces : List Text) :
    join glue (first :: second :: pieces) = first ++ (glue ++ join glue (second :: pieces)) := by
  simp [join, List.intercalate]

theorem mem_join {c : Char} {glue : Text} {pieces : List Text} (h : c ∈ join glue pieces) :
    c ∈ glue ∨ ∃ piece ∈ pieces, c ∈ piece := by
  induction pieces with
  | nil => cases h
  | cons first pieces ih =>
    cases pieces with
    | nil =>
      rw [join_singleton] at h
      exact .inr ⟨first, List.mem_cons_self, h⟩
    | cons second pieces =>
      rw [join_cons_cons, List.mem_append, List.mem_append] at h
      rcases h with h | h | h
      · exact .inr ⟨first, List.mem_cons_self, h⟩
      · exact .inl h
      · refine (ih h).imp_right ?_
        rintro ⟨piece, hpiece, hc⟩
        exact ⟨piece, List.mem_cons_of_mem _ hpiece, hc⟩

/-- Pieces without the character between them are read back from their joined text. -/
theorem splitAt_join {c : Char} {first : Text} {pieces : List Text}
    (h : ∀ piece ∈ first :: pieces, c ∉ piece) :
    splitAt c (join [c] (first :: pieces)) = first :: pieces := by
  induction pieces generalizing first with
  | nil =>
    rw [join_singleton]
    exact splitAt_of_not_mem (h first List.mem_cons_self)
  | cons second pieces ih =>
    have hrest := ih fun piece hp => h piece (List.mem_cons_of_mem _ hp)
    rw [join_cons_cons, List.singleton_append,
      splitAt_append_cons (h first List.mem_cons_self), hrest]

end ContractAtlas.Text
