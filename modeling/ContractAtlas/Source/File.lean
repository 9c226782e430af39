import ContractAtlas.Source.Line
import ContractAtlas.Text.Blank
import ContractAtlas.Text.Search

/-! Loaded files, their limits and their lines. -/
namespace ContractAtlas

/-- A loaded file. Its number is its place in load order. -/
structure SourceFile where
  id : Nat
  path : String
  text : Text
deriving DecidableEq

/-- Why a file is refused. -/
inductive SourceError
  | tooManyLines (count : Nat)
  | tooLarge (bytes : Nat)
deriving DecidableEq

namespace SourceError

def message : SourceError → String
  | tooManyLines count => s!"File exceeds maximum line count: {count} lines"
  | tooLarge bytes => s!"File exceeds maximum size: {bytes} bytes"

end SourceError

namespace SourceFile

def maxLines : Nat := 1000000

def maxBytes : Nat := 4294967295

/-- A file is refused when it is too large, or when anything at all stands on its line number
`maxLines`, a line ending included. -/
def refusal? (t : Text) : Option SourceError :=
  if maxBytes < t.byteSize then some (.tooLarge t.byteSize)
  else
    match t.lines.drop (maxLines - 1) with
    | l :: _ => if l.text.isEmpty then none else some (.tooManyLines maxLines)
    | [] => none

def lineCount (f : SourceFile) : Nat := f.text.lineStarts.length

/-- Line `n`, counted from one: what stands between its start and the next, without the ending. -/
def line? (f : SourceFile) (n : Nat) : Option Text :=
  if n = 0 then none
  else do
    let starts := f.text.lineStarts
    let start ← starts[n - 1]?
    let stop := starts[n]?.getD f.text.byteSize
    let line ← f.text.slice? (f.text.lastBoundary start) (f.text.lastBoundary stop)
    return line.withoutEnding

/-- Line and column of a byte offset, both from one. The column counts characters; an offset inside
a character belongs to that character. Both are 32-bit words. -/
def lineColumn? (f : SourceFile) (byte : Nat) : Option (Nat × Nat) :=
  if f.text.byteSize < byte then none
  else do
    let starts := f.text.lineStarts
    let index := (starts.takeWhile (· ≤ byte)).length - 1
    let start ← starts[index]?
    let before ← f.text.slice? start (f.text.lastBoundary byte)
    return ((index + 1) % UInt32.size, (before.length + 1) % UInt32.size)

/-- The same for a text that is `count` times the character `c`, not a line ending. -/
def lineColumnOfRun? (c : Char) (count byte : Nat) : Option (Nat × Nat) :=
  if count * c.utf8Size < byte then none
  else some (1, (byte / c.utf8Size + 1) % UInt32.size)

/-- A line with `radius` lines on each side, joined by line feeds and trimmed. The last line's
number is computed in 64-bit words. -/
def contextAround? (f : SourceFile) (line : Nat) (radius : UInt64) : Option Text := do
  let _ ← f.line? line
  let first := max (line - radius.toNat) 1
  let last := min (UInt64.ofNat line + radius).toNat f.lineCount
  return (Text.join ['\n'] ((List.range' first (last + 1 - first)).filterMap f.line?)).trim

end SourceFile

end ContractAtlas
