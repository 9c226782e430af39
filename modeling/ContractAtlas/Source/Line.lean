import ContractAtlas.Text.Blank
import ContractAtlas.Text.Search

/-! Lines of a file, each with the ending that closes it. -/
namespace ContractAtlas

/-- The three ways a line ends. -/
inductive LineEnding
  | lineFeed
  | returnFeed
  | carriageReturn
deriving DecidableEq

def LineEnding.text : LineEnding → Text
  | lineFeed => ['\n']
  | returnFeed => ['\r', '\n']
  | carriageReturn => ['\r']

/-- A line and its ending. Only the last line of a file has none. -/
structure Line where
  body : Text
  ending : Option LineEnding
deriving DecidableEq

namespace Line

def text (l : Line) : Text := l.body ++ (l.ending.map LineEnding.text).getD []

end Line

namespace Text

/-- The lines of a text; never empty. -/
def lines (t : Text) : List Line := go t [] []
where
  go : Text → Text → List Line → List Line
    | [], body, done => (⟨body.reverse, none⟩ :: done).reverse
    | '\r' :: '\n' :: t, body, done => go t [] (⟨body.reverse, some .returnFeed⟩ :: done)
    | '\r' :: t, body, done => go t [] (⟨body.reverse, some .carriageReturn⟩ :: done)
    | '\n' :: t, body, done => go t [] (⟨body.reverse, some .lineFeed⟩ :: done)
    | c :: t, body, done => go t (c :: body) done

private theorem lines_go_text (t body : Text) (done : List Line) :
    (lines.go t body done).flatMap Line.text =
      done.reverse.flatMap Line.text ++ (body.reverse ++ t) := by
  fun_induction lines.go t body done with
  | case1 body done => simp [Line.text]
  | case2 body done t ih => simp [ih, Line.text, LineEnding.text]
  | case3 body done t _ ih => simp [ih, Line.text, LineEnding.text]
  | case4 body done t ih => simp [ih, Line.text, LineEnding.text]
  | case5 body done c t _ _ _ ih => simp [ih]

/-- The lines with their endings make up the text. -/
@[simp] theorem flatMap_text_lines (t : Text) : t.lines.flatMap Line.text = t := by
  rw [lines, lines_go_text]; simp

/-- Byte offset at which each line starts: the beginning, and the end of every line ending. -/
def lineStarts (t : Text) : List Nat := go t 0 [0]
where
  go : Text → Nat → List Nat → List Nat
    | [], _, starts => starts.reverse
    | '\r' :: '\n' :: t, offset, starts => go t (offset + 2) ((offset + 2) :: starts)
    | '\r' :: t, offset, starts => go t (offset + 1) ((offset + 1) :: starts)
    | '\n' :: t, offset, starts => go t (offset + 1) ((offset + 1) :: starts)
    | c :: t, offset, starts => go t (offset + c.utf8Size) starts

/-- Without the carriage returns and line feeds at its end. -/
def withoutEnding (t : Text) : Text := t.dropEndWhile fun c => c == '\r' || c == '\n'

/-! Rows are the stretches between line feeds. A carriage return is an ordinary character in them,
except that a row ended by a line feed also gives up one carriage return before it. -/

/-- Row and byte column of a byte offset, both counted from zero. -/
def rowColumn (t : Text) (offset : Nat) : Nat × Nat := go t offset 0 0
where
  go : Text → Nat → Nat → Nat → Nat × Nat
    | [], left, row, column => (row, column + left)
    | c :: t, left, row, column =>
      if left = 0 then (row, column)
      else if c = '\n' then go t (left - 1) (row + 1) 0
      else if c.utf8Size ≤ left then go t (left - c.utf8Size) row (column + c.utf8Size)
      else (row, column + left)

/-- Without a carriage return at the end. -/
def withoutReturn (row : Text) : Text :=
  if row.getLast? = some '\r' then row.dropLast else row

/-- The rows as lines to read: each ended row without its line ending, then the last row unless it
is empty. -/
def rows (t : Text) : List Text :=
  let pieces := splitAt '\n' t
  let last := pieces.getLastD []
  pieces.dropLast.map withoutReturn ++ (if last.isEmpty then [] else [last])

end Text

end ContractAtlas
