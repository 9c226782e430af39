/-! Source text as a list of characters, measured and cut by UTF-8 byte offsets. -/
namespace ContractAtlas

/-- Source text, one entry per character. Names, paths and tags are `String`. -/
abbrev Text := List Char

namespace Text

/-- Length of the UTF-8 form. -/
def byteSize (t : Text) : Nat := t.foldr (fun c size => c.utf8Size + size) 0

@[simp] theorem byteSize_nil : byteSize [] = 0 := rfl

@[simp] theorem byteSize_cons (c : Char) (t : Text) :
    byteSize (c :: t) = c.utf8Size + byteSize t := rfl

@[simp] theorem byteSize_append (s t : Text) : byteSize (s ++ t) = byteSize s + byteSize t := by
  induction s with
  | nil => simp
  | cons c s ih => simp [ih, Nat.add_assoc]

/-- How many characters make up exactly the first `bytes` bytes. There is no answer inside a
character or past the end. -/
def boundary? (t : Text) (bytes : Nat) : Option Nat := go t bytes 0
where
  go : Text → Nat → Nat → Option Nat
    | _, 0, k => some k
    | [], _ + 1, _ => none
    | c :: t, n + 1, k =>
      if c.utf8Size ≤ n + 1 then go t (n + 1 - c.utf8Size) (k + 1) else none

/-- The last character boundary that is not after an offset: one steps back as long as one is inside
a character. -/
def lastBoundary (t : Text) (offset : Nat) : Nat :=
  if t.byteSize ≤ offset then t.byteSize else back offset
where
  back : Nat → Nat
    | 0 => 0
    | offset + 1 => if (t.boundary? (offset + 1)).isSome then offset + 1 else back offset

/-- The text of a byte range, when both ends are character boundaries in order. -/
def slice? (t : Text) (start stop : Nat) : Option Text :=
  if start ≤ stop then do
    let i ← t.boundary? start
    let j ← t.boundary? stop
    return (t.drop i).take (j - i)
  else none

private theorem boundary_go_append (s t : Text) (k : Nat) :
    boundary?.go (s ++ t) s.byteSize k = some (k + s.length) := by
  induction s generalizing k with
  | nil => simp [boundary?.go]
  | cons c s ih =>
    have hc := c.utf8Size_pos
    obtain ⟨n, hn⟩ : ∃ n, byteSize (c :: s) = n + 1 := ⟨byteSize (c :: s) - 1, by simp; omega⟩
    rw [hn, List.cons_append, boundary?.go]
    have hs : n + 1 - c.utf8Size = byteSize s := by simp at hn; omega
    rw [if_pos (by simp at hn; omega), hs, ih, List.length_cons]
    congr 1; omega

/-- The bytes of a first part are its characters. -/
@[simp] theorem boundary?_append (s t : Text) : (s ++ t).boundary? s.byteSize = some s.length := by
  rw [boundary?, boundary_go_append, Nat.zero_add]

/-- The byte range of a part of a text holds that part. -/
theorem slice?_append (s t u : Text) :
    (s ++ (t ++ u)).slice? s.byteSize (s.byteSize + t.byteSize) = some t := by
  have h : (s ++ (t ++ u)).boundary? (s.byteSize + t.byteSize) = some (s.length + t.length) := by
    rw [← byteSize_append, ← List.length_append, ← List.append_assoc, boundary?_append]
  simp [slice?, h]

/-- A letter, an underscore or a dollar sign. -/
def isNameStart (c : Char) : Bool := c.isAlpha || c == '_' || c == '$'

/-- A character that may continue an identifier. -/
def isNamePart (c : Char) : Bool := c.isAlphanum || c == '_' || c == '$'

/-- Identifiers of the language are ASCII only. -/
def isIdentifier : Text → Bool
  | [] => false
  | c :: t => isNameStart c && t.all isNamePart

end Text

end ContractAtlas
