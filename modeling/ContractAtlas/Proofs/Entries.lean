import ContractAtlas.Entries
import Mathlib.Data.Finset.Card
import Mathlib.Data.List.Induction
import Mathlib.Data.List.Nodup

/-! Maps kept as lists of entries: what is in them after entries were put in, and elements filed
under their keys. -/
namespace ContractAtlas.Entries

section Putting
variable {κ ν : Type} [BEq κ] [LawfulBEq κ]

theorem mem_of_mem_put {entries : Entries κ ν} {key : κ} {value : ν} {e : κ × ν}
    (h : e ∈ entries.put key value) : e ∈ entries ∨ e = (key, value) := by
  induction entries with
  | nil => exact .inr (List.mem_singleton.1 h)
  | cons first entries ih =>
    rw [put, update] at h
    split at h
    · rename_i hkey
      rcases List.mem_cons.1 h with rfl | h
      · exact .inr (by rw [eq_of_beq hkey])
      · exact .inl (List.mem_cons_of_mem _ h)
    · rcases List.mem_cons.1 h with rfl | h
      · exact .inl List.mem_cons_self
      · exact (ih h).imp_left (List.mem_cons_of_mem _)

theorem mem_of_mem_ofList {pairs : List (κ × ν)} {e : κ × ν} (h : e ∈ ofList pairs) :
    e ∈ pairs := by
  induction pairs using List.reverseRecOn with
  | nil => exact h
  | append_singleton pairs pair ih =>
    rw [ofList_concat] at h
    exact List.mem_append.2 ((mem_of_mem_put h).imp ih List.mem_singleton.2)

/-- A key that is not there gets an entry at the end. -/
theorem update_of_not_mem {entries : Entries κ ν} {key : κ} (h : key ∉ entries.map Prod.fst)
    (start : ν) (change : ν → ν) :
    entries.update key start change = entries ++ [(key, change start)] := by
  induction entries with
  | nil => rfl
  | cons first entries ih =>
    rw [List.map_cons, List.mem_cons, not_or] at h
    rw [update, if_neg fun hkey => h.1 (eq_of_beq hkey).symm, List.cons_append, ih h.2]

/-- Pairs with different keys stay as they are. -/
theorem ofList_of_nodup {pairs : List (κ × ν)} (h : (pairs.map Prod.fst).Nodup) :
    ofList pairs = pairs := by
  induction pairs using List.reverseRecOn with
  | nil => rfl
  | append_singleton pairs pair ih =>
    rw [List.map_append, List.nodup_append] at h
    obtain ⟨hpairs, -, hnew⟩ := h
    rw [ofList_concat, ih hpairs, put, update_of_not_mem]
    exact fun hmem => hnew _ hmem _ List.mem_cons_self rfl

/-- A key has the value that came last. -/
theorem lookup_ofList (pairs : List (κ × ν)) (k : κ) :
    (ofList pairs).lookup k = pairs.reverse.lookup k := by
  induction pairs using List.reverseRecOn with
  | nil => rfl
  | append_singleton pairs pair ih =>
    rw [ofList_concat, lookup_put, ih, List.reverse_concat, List.lookup_cons]
    cases k == pair.1 <;> rfl

theorem mem_keys_ofList {pairs : List (κ × ν)} {k : κ} :
    k ∈ (ofList pairs).map Prod.fst ↔ k ∈ pairs.map Prod.fst := by
  induction pairs using List.reverseRecOn with
  | nil => exact Iff.rfl
  | append_singleton pairs pair ih =>
    rw [ofList_concat, keys_put, List.map_append, List.mem_append, ← ih]
    split
    · rename_i hkey
      have hpair := List.contains_iff_mem.1 hkey
      refine ⟨.inl, fun h => h.elim id fun hk => ?_⟩
      exact List.mem_singleton.1 hk ▸ hpair
    · exact List.mem_append

theorem nodup_keys_ofList (pairs : List (κ × ν)) : ((ofList pairs).map Prod.fst).Nodup := by
  induction pairs using List.reverseRecOn with
  | nil => exact .nil
  | append_singleton pairs pair ih =>
    rw [ofList_concat, keys_put]
    split
    · exact ih
    · rename_i hkey
      refine List.nodup_append.2 ⟨ih, List.nodup_singleton _, fun a ha b hb he => hkey ?_⟩
      rw [List.contains_iff_mem, ← List.mem_singleton.1 hb, ← he]
      exact ha

end Putting

section Grouping
variable {α κ : Type} [DecidableEq κ] (key : α → κ)

/-- The elements whose key no element before them has. -/
def firstsBy : List α → List α
  | [] => []
  | a :: as => a :: (firstsBy as).filter fun b => key b != key a

theorem mem_map_firstsBy {k : κ} {as : List α} :
    k ∈ (firstsBy key as).map key ↔ k ∈ as.map key := by
  induction as with
  | nil => rfl
  | cons a as ih =>
    rw [firstsBy, List.map_cons, List.map_cons, List.mem_cons, List.mem_cons, ← ih]
    by_cases hk : k = key a
    · simp [hk]
    · have hrest : k ∈ ((firstsBy key as).filter fun b => key b != key a).map key ↔
          k ∈ (firstsBy key as).map key := by
        simp only [List.mem_map, List.mem_filter, bne_iff_ne]
        constructor
        · rintro ⟨b, ⟨hb, -⟩, rfl⟩
          exact ⟨b, hb, rfl⟩
        · rintro ⟨b, hb, rfl⟩
          exact ⟨b, ⟨hb, hk⟩, rfl⟩
      rw [hrest]

theorem nodup_map_firstsBy (as : List α) : ((firstsBy key as).map key).Nodup := by
  induction as with
  | nil => exact .nil
  | cons a as ih =>
    rw [firstsBy, List.map_cons, List.nodup_cons]
    refine ⟨fun hmem => ?_, ih.sublist (List.filter_sublist.map key)⟩
    obtain ⟨b, hb, hkey⟩ := List.mem_map.1 hmem
    exact bne_iff_ne.1 (List.mem_filter.1 hb).2 hkey

/-- A new last element is a first one unless its key is there. -/
theorem firstsBy_concat (as : List α) (a : α) :
    firstsBy key (as ++ [a]) =
      if key a ∈ as.map key then firstsBy key as else firstsBy key as ++ [a] := by
  induction as with
  | nil => rfl
  | cons b as ih =>
    rw [List.cons_append, firstsBy, firstsBy, ih, List.map_cons]
    by_cases ha : key a ∈ as.map key
    · rw [if_pos ha, if_pos (List.mem_cons_of_mem _ ha)]
    · rw [if_neg ha, List.filter_append]
      by_cases hb : key a = key b
      · simp [hb]
      · rw [if_neg (List.not_mem_cons_of_ne_of_not_mem hb ha)]
        simp [hb]

theorem length_firstsBy (as : List α) : (firstsBy key as).length = (as.map key).toFinset.card := by
  rw [← List.length_map key, ← List.toFinset_card_of_nodup (nodup_map_firstsBy key as)]
  congr 1
  ext k
  rw [List.mem_toFinset, List.mem_toFinset, mem_map_firstsBy]

/-- The elements sorted by key: under each key all that have it, in order, and the keys in the order
in which they first come. -/
def grouped (as : List α) : Entries κ (List α) :=
  (firstsBy key as).map fun a => (key a, as.filter fun b => key b == key a)

/-- Updating changes the one entry of a key that is there. -/
theorem update_of_mem {ν : Type} {ks : List α} (hnodup : (ks.map key).Nodup) {k : κ}
    (hk : k ∈ ks.map key) (value : κ → ν) (start : ν) (change : ν → ν) :
    update (ks.map fun a => (key a, value (key a))) k start change =
      ks.map fun a => (key a, if key a = k then change (value (key a)) else value (key a)) := by
  induction ks with
  | nil => cases hk
  | cons a ks ih =>
    rw [List.map_cons, List.nodup_cons] at hnodup
    rw [List.map_cons, List.map_cons, update]
    by_cases ha : key a = k
    · -- No later entry has the key, so the rest stays as it is.
      have hlater : ∀ b ∈ ks, key b ≠ k := fun b hb he =>
        hnodup.1 (ha ▸ he ▸ List.mem_map_of_mem hb)
      rw [if_pos (beq_iff_eq.2 ha), if_pos ha]
      refine congrArg _ (List.map_congr_left fun b hb => ?_)
      rw [if_neg (hlater b hb)]
    · have hrest : k ∈ ks.map key := (List.mem_cons.1 hk).resolve_left fun he => ha he.symm
      rw [if_neg (mt beq_iff_eq.1 ha), if_neg ha, ih hnodup.2 hrest]

/-- Filing one more element under its key. -/
theorem update_grouped (as : List α) (a : α) :
    (grouped key as).update (key a) [] (· ++ [a]) = grouped key (as ++ [a]) := by
  rw [grouped, grouped, firstsBy_concat]
  by_cases ha : key a ∈ as.map key
  · rw [update_of_mem key (nodup_map_firstsBy key as) ((mem_map_firstsBy key).2 ha)
      (fun k => as.filter fun b => key b == k), if_pos ha]
    refine List.map_congr_left fun b _ => ?_
    by_cases hb : key b = key a
    · simp [hb]
    · simp [hb, Ne.symm hb]
  · have hnone : as.filter (fun b => key b == key a) = [] := by
      rw [List.filter_eq_nil_iff]
      intro b hb hkey
      exact ha (List.mem_map.2 ⟨b, hb, eq_of_beq hkey⟩)
    have hnew : key a ∉ ((firstsBy key as).map fun b =>
        (key b, as.filter fun c => key c == key b)).map Prod.fst := by
      rw [List.map_map]
      exact mt (mem_map_firstsBy key).1 ha
    rw [update_of_not_mem hnew, if_neg ha, List.map_append]
    congr 1
    · refine List.map_congr_left fun b hb => ?_
      have hb' : key a ≠ key b := fun he =>
        ha (he ▸ (mem_map_firstsBy key).1 (List.mem_map_of_mem hb))
      simp [hb']
    · simp [hnone]

/-- Each element is filed in one place. -/
theorem flatMap_grouped_perm (as : List α) : ((grouped key as).flatMap Prod.snd).Perm as := by
  have hupdate : ∀ (entries : Entries κ (List α)) (a : α),
      ((entries.update (key a) [] (· ++ [a])).flatMap Prod.snd).Perm
        (entries.flatMap Prod.snd ++ [a]) := by
    intro entries a
    induction entries with
    | nil => exact .refl _
    | cons entry entries ih =>
      obtain ⟨k, filed⟩ := entry
      rw [update]
      split
      · rw [List.flatMap_cons, List.flatMap_cons, List.append_assoc, List.append_assoc]
        exact List.perm_append_comm.append_left filed
      · rw [List.flatMap_cons, List.flatMap_cons, List.append_assoc]
        exact ih.append_left filed
  induction as using List.reverseRecOn with
  | nil => exact .nil
  | append_singleton as a ih =>
    rw [← update_grouped]
    exact (hupdate _ a).trans (ih.append_right [a])

end Grouping

end ContractAtlas.Entries
