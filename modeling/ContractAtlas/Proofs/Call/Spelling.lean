import ContractAtlas.Call.Callee
import ContractAtlas.Proofs.Text.Cutting
import ContractAtlas.Proofs.Text.Identifier

/-! How callees are written. A callee is read back from its written form, and whatever a text is
read as is read again from what is written for it. -/
namespace ContractAtlas.Callee

/-- The callee as it is written. -/
def text : Callee → Text
  | identifier name => name.toList
  | member target name => target.toList ++ '.' :: name.toList
  | creation type => "new ".toList ++ type.toList
  | other text => text.toList

theorem text_creation (type : Text) :
    (creation (String.ofList type)).text = "new ".toList ++ type :=
  congrArg ("new ".toList ++ ·) String.toList_ofList

theorem text_member (target : Text) (i : Identifier) :
    (member (String.ofList target) i.name).text = target ++ '.' :: i.text :=
  congrArg (· ++ '.' :: i.text) String.toList_ofList

theorem text_other (t : Text) : (other (String.ofList t)).text = t := String.toList_ofList

/-- The text says that something is made. -/
def IsCreation (t : Text) : Prop := "new ".toList <+: t

theorem after?_eq_none_iff {t : Text} : Text.after? "new ".toList t = none ↔ ¬ IsCreation t := by
  constructor
  · rintro h ⟨rest, hrest⟩
    rw [Text.after?_eq_some_iff.2 hrest.symm] at h
    cases h
  · intro h
    exact if_neg (mt List.isPrefixOf_iff_prefix.1 h)

theorem isIdentifier_eq_false_of_mem {t : Text} {c : Char}
    (hc : Text.isNamePart c = false) (h : c ∈ t) :
    t.isIdentifier = false := by
  refine Bool.eq_false_iff.2 fun hid => ?_
  have hpart : c ∉ (String.ofList t).toList :=
    Identifier.not_mem ⟨String.ofList t, by rwa [String.toList_ofList]⟩ hc
  rw [String.toList_ofList] at hpart
  exact hpart h

/-! ### What each written form is read as -/

theorem ofText_trim (t : Text) : ofText t.trim = ofText t := by
  rw [ofText, ofText, Text.trim_trim]

theorem ofText_identifier (i : Identifier) : ofText i.text = identifier i.name := by
  have hvalid : Text.isIdentifier i.text = true := i.valid
  rw [ofText, i.isSolid.trim_eq]
  simp only [hvalid, if_true, i.ofList_text]

theorem ofText_creation {type : Text} (h : type.IsSolid) :
    ofText ("new ".toList ++ type) = creation (String.ofList type) := by
  have htrim : Text.trim ("new ".toList ++ type) = "new ".toList ++ type := by
    have hnew : Text.IsSolid "new".toList := by decide
    exact (hnew.append h [' ']).trim_eq
  have hname : Text.isIdentifier ("new ".toList ++ type) = false :=
    isIdentifier_eq_false_of_mem (by decide : Text.isNamePart ' ' = false) (by simp)
  have hafter : Text.after? "new ".toList ("new ".toList ++ type) = some type :=
    Text.after?_eq_some_iff.2 rfl
  rw [ofText]
  simp only [htrim, hname, hafter, h.trim_eq, Bool.false_eq_true, if_false]

/-- Whatever stands before the last dot is the target, unless it says that something is made. -/
theorem ofText_member {target : Text} (h : target.IsSolid) (hnew : ¬ IsCreation target)
    (i : Identifier) :
    ofText (target ++ '.' :: i.text) = member (String.ofList target) i.name := by
  have htrim : Text.trim (target ++ '.' :: i.text) = target ++ '.' :: i.text :=
    (h.append i.isSolid ['.']).trim_eq
  have hname : Text.isIdentifier (target ++ '.' :: i.text) = false :=
    isIdentifier_eq_false_of_mem (by decide : Text.isNamePart '.' = false) (by simp)
  have hafter : Text.after? "new ".toList (target ++ '.' :: i.text) = none :=
    after?_eq_none_iff.2 fun hpre => hnew (Text.prefix_of_prefix_append_cons (by decide) hpre)
  have hcut : Text.cutLast? '.' (target ++ '.' :: i.text) = some (target, i.text) :=
    Text.cutLast?_eq_some_iff.2 ⟨rfl, i.not_mem (by decide)⟩
  have hvalid : Text.isIdentifier i.text = true := i.valid
  have hempty : target.isEmpty = false := List.isEmpty_eq_false_iff.2 h.ne_nil
  rw [ofText]
  simp only [htrim, hname, hafter, hcut, h.trim_eq, i.isSolid.trim_eq, hvalid, hempty,
    Bool.false_eq_true, if_false, Bool.not_false, Bool.and_self, if_true, i.ofList_text]

/-! ### What a text can be read as -/

/-- Of a trimmed text that says that something is made, more is left than white space. -/
private theorem trim_ne_nil_of_isSolid {type : Text} (h : Text.IsSolid ("new ".toList ++ type)) :
    type.trim ≠ [] := by
  intro hnil
  obtain ⟨before, after, htype, hbefore, hafter⟩ := type.exists_trim
  have hblank : Text.IsBlankText (' ' :: type) := by
    rw [htype, hnil, List.nil_append]
    exact List.forall_mem_cons.2 ⟨by decide, List.forall_mem_append.2 ⟨hbefore, hafter⟩⟩
  have hsolid : Text.IsSolid ("new".toList ++ ' ' :: type) := h
  exact hsolid.not_isBlankText_right (List.cons_ne_nil _ _) hblank

/-- The four outcomes, with what is known of their parts. -/
theorem ofText_cases (source : Text) :
    (∃ i : Identifier, ofText source = identifier i.name) ∨
      (∃ type : Text, type.IsSolid ∧ ofText source = creation (String.ofList type)) ∨
      (∃ (target : Text) (i : Identifier), target.IsSolid ∧ ¬ IsCreation target ∧
        ofText source = member (String.ofList target) i.name) ∨
      ofText source = other (String.ofList source.trim) := by
  rw [ofText]
  by_cases hname : source.trim.isIdentifier = true
  · exact .inl
      ⟨⟨String.ofList source.trim, by rwa [String.toList_ofList]⟩, by simp only [hname, if_true]⟩
  right
  simp only [hname, Bool.false_eq_true, if_false]
  cases hafter : Text.after? "new ".toList source.trim with
  | some type =>
    have htrim : source.trim = "new ".toList ++ type := Text.after?_eq_some_iff.1 hafter
    have hsolid : Text.IsSolid ("new ".toList ++ type) :=
      htrim ▸ Text.isSolid_trim (by simp [htrim])
    exact .inl ⟨type.trim, Text.isSolid_trim (trim_ne_nil_of_isSolid hsolid), rfl⟩
  | none =>
    right
    cases hcut : Text.cutLast? '.' source.trim with
    | none => exact .inr rfl
    | some cut =>
      obtain ⟨target, name⟩ := cut
      by_cases hmember : (name.trim.isIdentifier && !target.trim.isEmpty) = true
      · left
        obtain ⟨hvalid, htarget⟩ := Bool.and_eq_true_iff.1 hmember
        have hne : target.trim ≠ [] := by simpa using htarget
        refine ⟨target.trim, ⟨String.ofList name.trim, by rwa [String.toList_ofList]⟩,
          Text.isSolid_trim hne, fun hnew => ?_, if_pos hmember⟩
        -- The target stands at the start of the text, so the text would say the same.
        have htrim : source.trim = target ++ '.' :: name := (Text.cutLast?_eq_some_iff.1 hcut).1
        have hstart : target.head?.any Text.isBlank = false := by
          have hsolid : source.trim.IsSolid := Text.isSolid_trim (by simp [htrim])
          have htarget : target ≠ [] := fun h => hne (by rw [h]; rfl)
          rw [← List.head?_append_of_ne_nil _ htarget, ← htrim]
          exact hsolid.start
        have hstands : target.trim <+: source.trim :=
          htrim ▸ (Text.trim_isPrefix hstart).trans (List.prefix_append _ _)
        exact after?_eq_none_iff.1 hafter (hnew.trans hstands)
      · exact .inr (if_neg hmember)

/-- Reading what is written for a callee that was read gives that callee again, and a member of any
target that does not say that something is made is read as this member of this target. -/
theorem ofText_text_ofText :
    (∀ source, ofText (ofText source).text = ofText source) ∧
      ∀ (target : Text) (i : Identifier), target.trim = target → target ≠ [] →
        ¬ "new ".toList <+: target →
        ofText (target ++ '.' :: i.text) = member (String.ofList target) i.name := by
  constructor
  · intro source
    rcases ofText_cases source with ⟨i, h⟩ | ⟨type, htype, h⟩ | ⟨target, i, htarget, hnew, h⟩ | h
    · rw [h]
      exact ofText_identifier i
    · rw [h, text_creation]
      exact ofText_creation htype
    · rw [h, text_member]
      exact ofText_member htarget hnew i
    · conv_lhs => rw [h, text_other, ofText_trim]
  · intro target i htrim hne hnew
    have hsolid : target.IsSolid := htrim ▸ Text.isSolid_trim (htrim.symm ▸ hne)
    exact ofText_member hsolid hnew i

/-- A target with dots, the word `new` and arguments of its own. -/
theorem ofText_text_ofText_sample :
    Text.trim "new_f(a.b, new C).g".toList = "new_f(a.b, new C).g".toList ∧
      ¬ "new ".toList <+: "new_f(a.b, new C).g".toList ∧
      ofText "new_f(a.b, new C).g.h".toList = member "new_f(a.b, new C).g" "h" := by
  have htrim : Text.trim "new_f(a.b, new C).g".toList = "new_f(a.b, new C).g".toList := by decide
  have hnew : ¬ "new ".toList <+: "new_f(a.b, new C).g".toList := by decide
  have hread :=
    ofText_text_ofText.2 "new_f(a.b, new C).g".toList ⟨"h", by decide⟩ htrim (by decide) hnew
  rw [String.ofList_toList] at hread
  exact ⟨htrim, hnew, hread⟩

end ContractAtlas.Callee
