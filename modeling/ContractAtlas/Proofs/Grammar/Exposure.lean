import ContractAtlas.Proofs.Grammar.Exactness

/-! What the grammar promises of a syntax tree, and which trees of a function body lowering goes
through. It takes inline assembly, types that are declared or created, and the options of a call as
mere text. -/
namespace ContractAtlas.ParseTree

/-- The first or only child of its sort, under a field name, while all other content is of kind
`rest`. -/
def HeadedBy (t : ParseTree) (field rest : String) : Prop :=
  ∃ head ∈ t.fieldOrFirst? field, head.isContent = true ∧ head.kind ≠ rest ∧
    ∀ c ∈ t.content, c.kind ≠ rest → c.start = head.start ∧ c.stop = head.stop

instance (t : ParseTree) (field rest : String) : Decidable (t.HeadedBy field rest) :=
  inferInstanceAs (Decidable (∃ head ∈ t.fieldOrFirst? field, _))

def holdsCall (t : ParseTree) : Bool := t.subtrees.any fun x => x.kind == "call_expression"

/-- Names, literals, elementary types and jumps. -/
def isAtom (t : ParseTree) : Bool :=
  ["identifier", "user_defined_type", "number_literal", "string_literal", "unicode_string_literal",
    "boolean_literal", "hex_string_literal", "primitive_type", "elementary_type", "break_statement",
    "continue_statement"].contains t.kind

def isConversion (t : ParseTree) : Bool :=
  t.kind == "type_cast_expression" || t.kind == "payable_conversion_expression"

theorem isConversion_iff {t : ParseTree} : t.isConversion = true ↔
    t.kind = "type_cast_expression" ∨ t.kind = "payable_conversion_expression" := by
  rw [isConversion, Bool.or_eq_true, beq_iff_eq, beq_iff_eq]

/-- What the grammar promises: siblings do not overlap, tokens and comments are not divided further,
and every form that lowering takes apart has the parts it is made of. -/
@[mk_iff] structure Grammatical (text : Text) (t : ParseTree) : Prop where
  placed : t.Placed text
  siblings : t.children.Pairwise fun c d => c.stop ≤ d.start
  tokens : ∀ c ∈ t.children, c.isContent = false → c.children = []
  atom : t.isAtom = true → t.holdsCall = false
  wrapper : t.kind = "expression" → t.content.length = 1
  call : t.kind = "call_expression" →
    t.HeadedBy "function" "call_argument" ∧ ∀ c ∈ t.content, c.stop < t.stop
  event : t.kind = "emit_statement" →
    t.HeadedBy "name" "call_argument" ∧ (t.lastParenthesis? text).isSome = true
  options : t.kind = "struct_expression" → t.HeadedBy "type" "struct_field_assignment"
  member : t.kind = "member_expression" → ∀ object ∈ t.fieldOrFirst? "object", ∀ c ∈ t.content,
    c.holdsCall = true → c.start = object.start ∧ c.stop = object.stop
  conversion : t.isConversion = true →
    (∀ c ∈ t.content, c.stop < t.stop ∧ (c.stop ≤ t.typeStop text ∨ t.typeStop text < c.start)) ∧
      ∀ c ∈ t.content.tail, t.typeStop text < c.start

instance (text : Text) (t : ParseTree) : Decidable (t.Grammatical text) :=
  decidable_of_iff _ (grammatical_iff text t).symm

/-- Whether lowering goes into a child of kind `child`. The options of a call stand in the form that
is `called`. -/
def keeps (kind : String) (called : Bool) (child : String) : Bool :=
  match kind with
  | "assembly_statement" | "new_expression" => false
  | "variable_declaration_statement" =>
    child != "variable_declaration" && child != "variable_declaration_tuple"
  | "struct_expression" => !called || child != "struct_field_assignment"
  | _ => true

/-- Whether a child is what a call calls, or a wrapper around it. -/
def calls (kind : String) (called : Bool) (child : String) : Bool :=
  match kind with
  | "call_expression" => child != "call_argument"
  | "expression" => called
  | _ => false

section Kinds
variable {kind : String} (child : String)

theorem keeps_of_ne (hassembly : kind ≠ "assembly_statement") (hcreation : kind ≠ "new_expression")
    (hdeclaration : kind ≠ "variable_declaration_statement") : keeps kind false child = true := by
  unfold keeps
  split
  · contradiction
  · contradiction
  · contradiction
  · rfl
  · rfl

theorem calls_of_ne (hcall : kind ≠ "call_expression") : calls kind false child = false := by
  unfold calls
  split
  · contradiction
  · rfl
  · rfl

/-- Only a form with options has parts that are kept unless it is called. -/
theorem keeps_called (hoptions : kind ≠ "struct_expression") :
    keeps kind true child = keeps kind false child := by
  unfold keeps
  split
  · rfl
  · rfl
  · rfl
  · contradiction
  · rfl

/-- Only a wrapper hands on that it is called. -/
theorem calls_called (hwrapper : kind ≠ "expression") :
    calls kind true child = calls kind false child := by
  unfold calls
  split
  · rfl
  · contradiction
  · rfl

end Kinds

mutual

/-- The trees that lowering goes through, the tree itself included. -/
def exposed (called : Bool) : ParseTree → List ParseTree
  | ⟨kind, start, stop, isNamed, isExtra, isError, isMissing, children, fields⟩ =>
    ⟨kind, start, stop, isNamed, isExtra, isError, isMissing, children, fields⟩ ::
      exposedIn kind called children

def exposedIn (kind : String) (called : Bool) : List ParseTree → List ParseTree
  | [] => []
  | t :: ts =>
    (if t.isContent && keeps kind called t.kind then exposed (calls kind called t.kind) t
      else []) ++ exposedIn kind called ts

end

private theorem mem_exposedIn {kind : String} {called : Bool} {ts : List ParseTree}
    {x : ParseTree} :
    x ∈ exposedIn kind called ts ↔ ∃ c ∈ ts, c.isContent = true ∧ keeps kind called c.kind = true ∧
      x ∈ c.exposed (calls kind called c.kind) := by
  induction ts with
  | nil => exact ⟨fun h => (nomatch h), fun ⟨_, h, _⟩ => nomatch h⟩
  | cons t ts ih =>
    rw [exposedIn, List.mem_append, ih]
    constructor
    · rintro (h | ⟨c, hc, h⟩)
      · split at h
        · rename_i hk
          rw [Bool.and_eq_true] at hk
          exact ⟨t, List.mem_cons_self, hk.1, hk.2, h⟩
        · cases h
      · exact ⟨c, List.mem_cons_of_mem _ hc, h⟩
    · rintro ⟨c, hc, hcontent, hkeeps, hx⟩
      rcases List.mem_cons.1 hc with rfl | hc
      · rw [hcontent, hkeeps]
        exact .inl hx
      · exact .inr ⟨c, hc, hcontent, hkeeps, hx⟩

theorem mem_exposed {called : Bool} {t x : ParseTree} :
    x ∈ t.exposed called ↔ x = t ∨ ∃ c ∈ t.content, keeps t.kind called c.kind = true ∧
      x ∈ c.exposed (calls t.kind called c.kind) := by
  rcases t with ⟨kind, start, stop, isNamed, isExtra, isError, isMissing, children, fields⟩
  rw [exposed, List.mem_cons, mem_exposedIn]
  simp only [mem_content, and_assoc]

theorem exposed_subset_subtrees {called : Bool} {t x : ParseTree} (h : x ∈ t.exposed called) :
    x ∈ t.subtrees := by
  induction t generalizing called with
  | tree t ih =>
    rcases mem_exposed.1 h with rfl | ⟨c, hc, -, hx⟩
    · exact x.self_mem_subtrees
    · have hc := t.content_subset hc
      exact mem_subtrees_of_child hc (ih c hc hx)

/-- A call, as opposed to a token or a comment. -/
def isCallTree (x : ParseTree) : Bool := x.kind == "call_expression" && x.isContent

theorem holdsCall_of_mem {t x : ParseTree} (hx : x ∈ t.subtrees) (hcall : x.isCallTree = true) :
    t.holdsCall = true := by
  rw [isCallTree, Bool.and_eq_true] at hcall
  exact List.any_eq_true.2 ⟨x, hx, hcall.1⟩

section Below
variable {text : Text} {t c x : ParseTree} (h : ∀ y ∈ t.subtrees, y.Grammatical text)
include h

theorem grammatical_of_child (hc : c ∈ t.children) : ∀ y ∈ c.subtrees, y.Grammatical text :=
  fun y hy => h y (mem_subtrees_of_child hc hy)

theorem range_of_subtree (hx : x ∈ t.subtrees) : t.start ≤ x.start ∧ x.stop ≤ t.stop :=
  range_of_mem_subtrees (fun y hy => (h y hy).placed) hx

theorem start_lt_stop (ht : t.isCallTree = true) : t.start < t.stop := by
  rw [isCallTree, Bool.and_eq_true, beq_iff_eq] at ht
  have hself := h t t.self_mem_subtrees
  obtain ⟨⟨head, hhead, hcontent, -, -⟩, hstop⟩ := hself.call ht.1
  have hmem := mem_children_of_fieldOrFirst? hhead
  have hrange := hself.placed.children head hmem
  have hordered := (h head (mem_subtrees_of_child hmem head.self_mem_subtrees)).placed.ordered
  have hend := hstop head (mem_content.2 ⟨hmem, hcontent⟩)
  omega

/-- Only one child can hold a range that is not empty. -/
theorem sole_child (hc : c ∈ t.children) {start stop : Nat} (hlt : start < stop)
    (hin : c.start ≤ start ∧ stop ≤ c.stop) :
    ∃ before after, t.children = before ++ c :: after ∧
      ∀ d ∈ before ++ after, ¬(d.start ≤ start ∧ stop ≤ d.stop) := by
  obtain ⟨before, after, he⟩ := List.append_of_mem hc
  have hpairwise := (h t t.self_mem_subtrees).siblings
  rw [he, List.pairwise_append, List.pairwise_cons] at hpairwise
  obtain ⟨-, ⟨hafter, -⟩, hbefore⟩ := hpairwise
  refine ⟨before, after, he, fun d hd hd' => ?_⟩
  rcases List.mem_append.1 hd with hd | hd
  · have := hbefore d hd c List.mem_cons_self
    omega
  · have := hafter d hd
    omega

theorem eq_of_range (hc : c ∈ t.children) {start stop : Nat} (hlt : start < stop)
    (hin : c.start ≤ start ∧ stop ≤ c.stop) {d : ParseTree} (hd : d ∈ t.children)
    (hd' : d.start ≤ start ∧ stop ≤ d.stop) : d = c := by
  obtain ⟨before, after, he, hothers⟩ := sole_child h hc hlt hin
  rw [he, List.mem_append, List.mem_cons] at hd
  rcases hd with hd | hd | hd
  · exact absurd hd' (hothers d (List.mem_append_left _ hd))
  · exact hd
  · exact absurd hd' (hothers d (List.mem_append_right _ hd))

variable (hc : c ∈ t.children) (hx : x ∈ c.subtrees) (hcall : x.isCallTree = true)
include hc hx hcall

/-- Where a call is, there is content. -/
theorem isContent_of_call : c.isContent = true := by
  cases hcontent : c.isContent with
  | true => rfl
  | false =>
    have hchildren := (h t t.self_mem_subtrees).tokens c hc hcontent
    rcases mem_subtrees.1 hx with rfl | ⟨d, hd, -⟩
    · rw [isCallTree, hcontent, Bool.and_false] at hcall
      cases hcall
    · rw [hchildren] at hd
      cases hd

theorem mem_content_of_call : c ∈ t.content := mem_content.2 ⟨hc, isContent_of_call h hc hx hcall⟩

theorem range_of_call : x.start < x.stop ∧ c.start ≤ x.start ∧ x.stop ≤ c.stop :=
  ⟨start_lt_stop (fun y hy => h y (mem_subtrees_of_child hc (mem_subtrees_trans hx hy))) hcall,
    range_of_subtree (grammatical_of_child h hc) hx⟩

/-- A call is larger than any call below it. -/
theorem ne_of_below : x ≠ t := by
  rintro rfl
  have hkind : x.kind = "call_expression" := by
    rw [isCallTree, Bool.and_eq_true, beq_iff_eq] at hcall
    exact hcall.1
  have hend := ((h x x.self_mem_subtrees).call hkind).2 c (mem_content_of_call h hc hx hcall)
  have hrange := range_of_call h hc hx hcall
  omega

/-- What is not of the kind that follows the head is the head. -/
theorem eq_of_headedBy {field rest : String} (hheaded : t.HeadedBy field rest) {head : ParseTree}
    (hhead : t.fieldOrFirst? field = some head) (hne : c.kind ≠ rest) : head = c := by
  obtain ⟨hlt, hin⟩ := range_of_call h hc hx hcall
  obtain ⟨_, hfirst, -, -, hothers⟩ := hheaded
  cases hhead.symm.trans hfirst
  have hsame := hothers c (mem_content_of_call h hc hx hcall) hne
  exact eq_of_range h hc hlt hin (mem_children_of_fieldOrFirst? hhead) (by omega)

theorem mem_exposed_below {called : Bool} :
    x ∈ t.exposed called ↔
      keeps t.kind called c.kind = true ∧ x ∈ c.exposed (calls t.kind called c.kind) := by
  obtain ⟨hlt, hin⟩ := range_of_call h hc hx hcall
  rw [mem_exposed]
  constructor
  · rintro (he | ⟨d, hd, hkeeps, hxd⟩)
    · exact absurd he (ne_of_below h hc hx hcall)
    · have hd := t.content_subset hd
      have hin' := range_of_subtree (grammatical_of_child h hd) (exposed_subset_subtrees hxd)
      cases eq_of_range h hc hlt hin hd hin'
      exact ⟨hkeeps, hxd⟩
  · intro ⟨hkeeps, hxc⟩
    exact .inr ⟨c, mem_content_of_call h hc hx hcall, hkeeps, hxc⟩

end Below

end ContractAtlas.ParseTree
