/-! Finite sets of names, kept as strictly increasing lists so that equal sets are equal values. -/
namespace ContractAtlas

/-- A finite set of names in increasing order of their characters. -/
structure NameSet where
  names : List String
  sorted : names.Pairwise (· < ·)
deriving DecidableEq

namespace NameSet

/-- Puts `name` at its place in an increasing list, once. -/
def place (name : String) : List String → List String
  | [] => [name]
  | x :: xs =>
    if name < x then name :: x :: xs
    else if name = x then x :: xs
    else x :: place name xs

@[simp] theorem mem_place {name y : String} {xs : List String} :
    y ∈ place name xs ↔ y = name ∨ y ∈ xs := by
  induction xs with
  | nil => simp [place]
  | cons x xs ih =>
    rw [place]
    split
    · simp
    · split
      · subst name; simp
      · simp [ih, or_left_comm]

theorem place_sorted {name : String} {xs : List String} (h : xs.Pairwise (· < ·)) :
    (place name xs).Pairwise (· < ·) := by
  induction xs with
  | nil => simp [place]
  | cons x xs ih =>
    rw [List.pairwise_cons] at h
    rw [place]
    split
    · rename_i hlt
      exact List.pairwise_cons.2 ⟨fun y hy => by
        rcases List.mem_cons.1 hy with rfl | hy
        · exact hlt
        · exact String.lt_trans hlt (h.1 y hy), List.pairwise_cons.2 h⟩
    · split
      · exact List.pairwise_cons.2 h
      · rename_i hlt hne
        refine List.pairwise_cons.2 ⟨fun y hy => ?_, ih h.2⟩
        rcases mem_place.1 hy with rfl | hy
        · exact String.not_le.1 fun hle =>
            hne (String.le_antisymm hle (String.not_lt.1 hlt))
        · exact h.1 y hy

def empty : NameSet := ⟨[], .nil⟩

instance : Inhabited NameSet := ⟨empty⟩

instance : EmptyCollection NameSet := ⟨empty⟩

def insert (s : NameSet) (name : String) : NameSet := ⟨place name s.names, place_sorted s.sorted⟩

def ofList (names : List String) : NameSet := names.foldl insert empty

def contains (s : NameSet) (name : String) : Bool := s.names.contains name

def union (s t : NameSet) : NameSet := t.names.foldl insert s

def isEmpty (s : NameSet) : Bool := s.names.isEmpty

variable {s t : NameSet} {name other : String}

@[simp] theorem contains_empty : empty.contains name = false := rfl

@[simp] theorem contains_insert :
    (s.insert name).contains other = (other == name || s.contains other) := by
  rw [Bool.eq_iff_iff]
  simp [contains, insert]

theorem contains_foldl_insert (names : List String) :
    (names.foldl insert s).contains name = (s.contains name || names.contains name) := by
  induction names generalizing s with
  | nil => simp
  | cons x xs ih => rw [List.foldl_cons, ih, contains_insert, List.contains_cons]; ac_rfl

@[simp] theorem contains_ofList (names : List String) :
    (ofList names).contains name = names.contains name := by
  rw [ofList, contains_foldl_insert, contains_empty, Bool.false_or]

@[simp] theorem contains_union : (s.union t).contains name = (s.contains name || t.contains name) :=
  contains_foldl_insert t.names

theorem not_isEmpty_iff : (!s.isEmpty) = true ↔ ∃ name, s.contains name = true := by
  rw [isEmpty, Bool.not_eq_true', List.isEmpty_eq_false_iff_exists_mem]
  simp only [contains, List.contains_iff_mem]

/-- Sets with the same members are equal. -/
theorem eq_of_contains (h : ∀ name, s.contains name = t.contains name) : s = t := by
  have hs := s.sorted
  have ht := t.sorted
  have hmem : ∀ name, name ∈ s.names ↔ name ∈ t.names := fun name => by
    simpa [contains] using Bool.eq_iff_iff.1 (h name)
  have hperm : s.names.Perm t.names :=
    (List.perm_ext_iff_of_nodup (hs.imp fun h => String.ne_of_lt h)
      (ht.imp fun h => String.ne_of_lt h)).2 hmem
  have hnames : s.names = t.names :=
    hperm.eq_of_pairwise
      (fun a b _ _ hab hba => absurd (String.lt_trans hab hba) (String.lt_irrefl a)) hs ht
  cases s; cases t; cases hnames; rfl

end NameSet

end ContractAtlas
