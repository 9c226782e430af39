import ContractAtlas.Text.Blank
import ContractAtlas.Text.Word

/-! Text patterns, and what a pattern matches at one place of a text. Earlier alternatives and
longer repetitions are preferred. -/
namespace ContractAtlas

inductive Pattern
  /-- Nothing at all. -/
  | nothing
  /-- The given character. -/
  | exactly (c : Char)
  /-- One character that satisfies the test. -/
  | one (accepts : Char → Bool)
  /-- Characters that satisfy the test, as many as possible. -/
  | many (accepts : Char → Bool)
  /-- Characters that satisfy the test, as few as possible. -/
  | few (accepts : Char → Bool)
  | seq (first second : Pattern)
  /-- `second` is tried only where `first` leads to no match. -/
  | alt (first second : Pattern)
  /-- Remembers the text that `inner` takes. -/
  | group (inner : Pattern)
  /-- Takes nothing, where the characters before and after the place satisfy the test. -/
  | look (holds : Option Char → Option Char → Bool)

/-- A place in a text: the character before it, if any, and the text after it. -/
structure Cursor where
  previous : Option Char
  rest : Text

/-- The places of a text, from its start to its end. -/
def Cursor.places : Option Char → Text → List Cursor
  | previous, [] => [⟨previous, []⟩]
  | previous, c :: t => ⟨previous, c :: t⟩ :: places (some c) t

/-- What a pattern takes from a place on. -/
structure Found where
  whole : Text := []
  /-- The groups that start at the place or later, in order. -/
  groups : List Text := []
  /-- What the groups that have started before the place take after it, the innermost first. -/
  started : List Text := []
deriving DecidableEq

namespace Found

/-- The same one character earlier. -/
def push (c : Char) (f : Found) : Found :=
  { f with whole := c :: f.whole, started := f.started.map (c :: ·) }

/-- A group ends at the place. -/
def endGroup (f : Found) : Found := { f with started := [] :: f.started }

/-- The innermost group starts at the place. -/
def startGroup (f : Found) : Found :=
  match f.started with
  | [] => f
  | g :: gs => { f with groups := g :: f.groups, started := gs }

end Found

namespace Pattern

instance : Append Pattern := ⟨seq⟩

instance : OrElse Pattern := ⟨fun p q => alt p (q ())⟩

/-- Between a word character and something that is none; the ends of the text are none. -/
def wordEdge : Pattern := look fun previous next => previous.any Text.isWord != next.any Text.isWord

def textStart : Pattern := look fun previous _ => previous.isNone

def textEnd : Pattern := look fun _ next => next.isNone

/-- At least one character that satisfies the test, as many as possible. -/
def several (accepts : Char → Bool) : Pattern := one accepts ++ many accepts

/-- The characters of `s` in order. -/
def literal (s : String) : Pattern := s.toList.foldr (fun c p => seq (exactly c) p) nothing

/-- One of the given words, the earliest that leads to a match. -/
def anyOf : List String → Pattern
  | [] => one fun _ => false
  | [s] => literal s
  | s :: ss => alt (literal s) (anyOf ss)

/-- `p` or nothing, `p` preferred. -/
def optional (p : Pattern) : Pattern := alt p nothing

/-- Takes one character and goes on. -/
def step (accepts : Char → Bool) (next : Cursor → Option Found) (c : Cursor) : Option Found :=
  match c.rest with
  | [] => none
  | d :: t => if accepts d then (next ⟨some d, t⟩).map (·.push d) else none

/-- Takes characters while they satisfy `accepts` and goes on from the longest stretch that
works. -/
def greedy (accepts : Char → Bool) (next : Cursor → Option Found) :
    Option Char → Text → Option Found
  | previous, [] => next ⟨previous, []⟩
  | previous, c :: t =>
    if accepts c then
      ((greedy accepts next (some c) t).map (·.push c)).or (next ⟨previous, c :: t⟩)
    else next ⟨previous, c :: t⟩

/-- Takes characters that satisfy `accepts` and goes on from the shortest stretch that works. -/
def lazy (accepts : Char → Bool) (next : Cursor → Option Found) :
    Option Char → Text → Option Found
  | previous, [] => next ⟨previous, []⟩
  | previous, c :: t =>
    if accepts c then
      (next ⟨previous, c :: t⟩).or ((lazy accepts next (some c) t).map (·.push c))
    else next ⟨previous, c :: t⟩

/-- Matches `p` at a place and goes on with `next`, backtracking into `p` when `next` fails. -/
def run : Pattern → (Cursor → Option Found) → Cursor → Option Found
  | nothing, next => next
  | exactly c, next => step (· == c) next
  | one accepts, next => step accepts next
  | many accepts, next => fun c => greedy accepts next c.previous c.rest
  | few accepts, next => fun c => lazy accepts next c.previous c.rest
  | seq p q, next => p.run (q.run next)
  | alt p q, next => fun c => (p.run next c).or (q.run next c)
  | group p, next => fun c => (p.run (fun d => (next d).map Found.endGroup) c).map Found.startGroup
  | look holds, next => fun c => if holds c.previous c.rest.head? then next c else none

/-- The preferred match at a place. -/
def matchAt? (p : Pattern) : Cursor → Option Found := p.run fun _ => some {}

end Pattern

end ContractAtlas
