import ContractAtlas.Text.Basic

/-! Places in loaded files: stretches of a file, the text found there, and the directions of a
search from a place. -/
namespace ContractAtlas

/-- A stretch of a loaded file. Lines and columns count from one and columns count bytes; the zero
span stands for code that no file holds. -/
structure Span where
  file : Nat := 0
  path : String := ""
  line : Nat := 0
  column : Nat := 0
  endLine : Nat := 0
  endColumn : Nat := 0
  startByte : Nat := 0
  endByte : Nat := 0
deriving DecidableEq, Inhabited

namespace Span

def byteLength (s : Span) : Nat := s.endByte - s.startByte

/-- Same file and byte range inside; paths and lines are not compared. -/
def encloses (s t : Span) : Bool :=
  s.file == t.file && s.startByte ≤ t.startByte && t.endByte ≤ s.endByte

/-- Textual order over all files: load order first, then the starting byte. -/
def order (s t : Span) : Ordering := (compare s.file t.file).then (compare s.startByte t.startByte)

def isAfter (s t : Span) : Bool := s.order t == .gt

def isBefore (s t : Span) : Bool := s.order t == .lt

end Span

/-- Forward from a place, backward from it, or both ways. -/
inductive Direction
  | forward
  | backward
  | both
deriving DecidableEq, Inhabited

namespace Direction

def name : Direction → String
  | forward => "forward"
  | backward => "backward"
  | both => "both"

def all : List Direction := [forward, backward, both]

def ofName? (s : String) : Option Direction := all.find? fun d => d.name == s

/-- Whether a search from `anchor` takes in a place. -/
def allows : Direction → Span → Span → Bool
  | both, _, _ => true
  | forward, candidate, anchor => candidate.isAfter anchor
  | backward, candidate, anchor => candidate.isBefore anchor

end Direction

/-- The bytes from `start` to `stop` of a file. The range is kept as given, valid or not. -/
structure Excerpt where
  file : Text := []
  start : Nat := 0
  stop : Nat := 0
deriving DecidableEq, Inhabited

namespace Excerpt

/-- A text of its own, taken whole. -/
def whole (t : Text) : Excerpt := ⟨t, 0, t.byteSize⟩

/-- The excerpt's text; empty when the range is not valid in the file. -/
def text (e : Excerpt) : Text := (e.file.slice? e.start e.stop).getD []

@[simp] theorem text_whole (t : Text) : (whole t).text = t := by
  have h := Text.slice?_append [] t []
  simp only [Text.byteSize_nil, List.nil_append, List.append_nil, Nat.zero_add] at h
  rw [text, whole, h, Option.getD_some]

def isEmpty (e : Excerpt) : Bool := e.stop ≤ e.start

/-- A part of the excerpt, cut off at the excerpt's end. Offsets are 64-bit words, so their sum with
the start wraps. -/
def narrow (e : Excerpt) (start stop : UInt64) : Excerpt :=
  { e with
    start := min (UInt64.ofNat e.start + start).toNat e.stop
    stop := min (UInt64.ofNat e.start + stop).toNat e.stop }

end Excerpt

end ContractAtlas
