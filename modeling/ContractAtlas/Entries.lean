/-! Maps kept as lists of entries in the order in which their keys first came. -/
namespace ContractAtlas

abbrev Entries (κ ν : Type) := List (κ × ν)

namespace Entries

variable {κ ν : Type} [BEq κ]

/-- Changes the entry of a key, or appends a new one made from `start`. -/
def update (entries : Entries κ ν) (key : κ) (start : ν) (change : ν → ν) : Entries κ ν :=
  match entries with
  | [] => [(key, change start)]
  | (k, v) :: rest =>
    if k == key then (k, change v) :: rest else (k, v) :: update rest key start change

theorem lookup_update [LawfulBEq κ] (entries : Entries κ ν) (key k : κ) (start : ν)
    (change : ν → ν) : (entries.update key start change).lookup k =
      if k == key then some (change ((entries.lookup key).getD start)) else entries.lookup k := by
  induction entries with
  | nil => by_cases hk : k = key <;> simp [update, List.lookup_cons, hk, beq_eq_false_iff_ne.2]
  | cons e es ih =>
    obtain ⟨k', v⟩ := e
    rw [update]
    by_cases h : k' = key
    · subst k'
      by_cases hk : k = key
      · simp [hk]
      · simp [List.lookup_cons, hk, beq_eq_false_iff_ne.2]
    · have h' : (key == k') = false := beq_eq_false_iff_ne.2 fun he => h he.symm
      by_cases hk : k = k'
      · subst k; simp [h]
      · have hk' : (k == k') = false := beq_eq_false_iff_ne.2 hk
        simp [List.lookup_cons, h, h', hk', ih]

/-- Sets the value of a key; a key that is there keeps its place. -/
def put (entries : Entries κ ν) (key : κ) (value : ν) : Entries κ ν :=
  entries.update key value fun _ => value

theorem lookup_put [LawfulBEq κ] (entries : Entries κ ν) (key k : κ) (value : ν) :
    (entries.put key value).lookup k = if k == key then some value else entries.lookup k :=
  entries.lookup_update key k value fun _ => value

theorem keys_put [LawfulBEq κ] (entries : Entries κ ν) (key : κ) (value : ν) :
    (entries.put key value).map Prod.fst =
      if (entries.map Prod.fst).contains key then entries.map Prod.fst
      else entries.map Prod.fst ++ [key] := by
  induction entries with
  | nil => rfl
  | cons e es ih =>
    obtain ⟨k, v⟩ := e
    rw [put] at ih ⊢
    rw [update]
    by_cases h : k = key
    · simp [h]
    · have h' : (key == k) = false := beq_eq_false_iff_ne.2 fun he => h he.symm
      rw [if_neg (mt eq_of_beq h), List.map_cons, ih, List.map_cons, List.contains_cons, h',
        Bool.false_or]
      split <;> rfl

/-- Later values win, earlier places stay. -/
def ofList (pairs : List (κ × ν)) : Entries κ ν :=
  pairs.foldl (fun entries (key, value) => put entries key value) []

theorem ofList_concat (pairs : List (κ × ν)) (pair : κ × ν) :
    ofList (pairs ++ [pair]) = (ofList pairs).put pair.1 pair.2 := by
  rw [ofList, List.foldl_append]
  rfl

end Entries

end ContractAtlas
