import ContractAtlas.Text.Basic

/-! Tokens of the settings document: punctuation, quoted texts and whole numbers. -/
namespace ContractAtlas.Settings

inductive Token
  | openBrace
  | closeBrace
  | openBracket
  | closeBracket
  | colon
  | comma
  | text (s : Text)
  | number (n : Nat)
deriving DecidableEq

namespace Token

def hexDigit (n : Nat) : Char := if n < 10 then Char.ofNat (48 + n) else Char.ofNat (87 + n)

def hexValue? (c : Char) : Option Nat :=
  if c.isDigit then some (c.toNat - 48)
  else if 'a' ≤ c && c ≤ 'f' then some (c.toNat - 87)
  else if 'A' ≤ c && c ≤ 'F' then some (c.toNat - 55)
  else none

/-- The written form of one character inside quotes: only quotes, backslashes and control characters
below the blank are escaped. -/
def escape (c : Char) : Text :=
  if c = '"' then ['\\', '"']
  else if c = '\\' then ['\\', '\\']
  else if c = '\x08' then ['\\', 'b']
  else if c = '\x0c' then ['\\', 'f']
  else if c = '\n' then ['\\', 'n']
  else if c = '\r' then ['\\', 'r']
  else if c = '\t' then ['\\', 't']
  else if c.toNat < 32 then
    ['\\', 'u', '0', '0', hexDigit (c.toNat / 16), hexDigit (c.toNat % 16)]
  else [c]

/-- A text in quotes. -/
def quote (s : Text) : Text := '"' :: (s.flatMap escape ++ ['"'])

/-- Where the scanner stands. Texts under way are held latest character first. -/
inductive Mode
  | between
  | number (n : Nat)
  | text (done : Text)
  | escape (done : Text)
  /-- Inside the four hexadecimal digits of an escape, with the first half of a pair if one is
  open. -/
  | hex (done : Text) (left value : Nat) (high : Option Nat)
  /-- After the first half of a pair, before the backslash of the second. -/
  | pairBackslash (done : Text) (high : Nat)
  | pairLetter (done : Text) (high : Nat)

structure Scan where
  mode : Mode := .between
  /-- Tokens read so far, latest first. -/
  tokens : List Token := []

def isSpace (c : Char) : Bool := c == ' ' || c == '\n' || c == '\r' || c == '\t'

/-- A character between two tokens, or right after a number. -/
def stepBetween (tokens : List Token) (c : Char) : Option Scan :=
  if isSpace c then some ⟨.between, tokens⟩
  else if c.isDigit then some ⟨.number (c.toNat - 48), tokens⟩
  else
    match c with
    | '"' => some ⟨.text [], tokens⟩
    | '{' => some ⟨.between, openBrace :: tokens⟩
    | '}' => some ⟨.between, closeBrace :: tokens⟩
    | '[' => some ⟨.between, openBracket :: tokens⟩
    | ']' => some ⟨.between, closeBracket :: tokens⟩
    | ':' => some ⟨.between, colon :: tokens⟩
    | ',' => some ⟨.between, comma :: tokens⟩
    | _ => none

/-- The character that a one-letter escape stands for. -/
def unescape? : Char → Option Char
  | '"' => some '"'
  | '\\' => some '\\'
  | '/' => some '/'
  | 'b' => some '\x08'
  | 'f' => some '\x0c'
  | 'n' => some '\n'
  | 'r' => some '\r'
  | 't' => some '\t'
  | _ => none

/-- The mode after a finished four-digit escape: a character, or half of a pair. Halves must come in
order, the high one first. -/
def finishHex (done : Text) (value : Nat) (high : Option Nat) : Option Mode :=
  let isHigh := 0xD800 ≤ value && value ≤ 0xDBFF
  let isLow := 0xDC00 ≤ value && value ≤ 0xDFFF
  match high with
  | some h =>
    if isLow then
      some (.text (Char.ofNat (0x10000 + (h - 0xD800) * 0x400 + (value - 0xDC00)) :: done))
    else none
  | none =>
    if isHigh then some (.pairBackslash done value)
    else if isLow then none
    else some (.text (Char.ofNat value :: done))

/-- One character of the document. -/
def step (s : Scan) (c : Char) : Option Scan :=
  match s.mode with
  | .between => stepBetween s.tokens c
  | .number n =>
    if c.isDigit then
      if n = 0 then none else some ⟨.number (n * 10 + (c.toNat - 48)), s.tokens⟩
    else stepBetween (Token.number n :: s.tokens) c
  | .text done =>
    if c = '"' then some ⟨.between, Token.text done.reverse :: s.tokens⟩
    else if c = '\\' then some ⟨.escape done, s.tokens⟩
    else if c.toNat < 32 then none
    else some ⟨.text (c :: done), s.tokens⟩
  | .escape done =>
    if c = 'u' then some ⟨.hex done 4 0 none, s.tokens⟩
    else (unescape? c).map fun d => ⟨.text (d :: done), s.tokens⟩
  | .hex done left value high => do
    let digit ← hexValue? c
    let value := value * 16 + digit
    if left ≤ 1 then
      let mode ← finishHex done value high
      return ⟨mode, s.tokens⟩
    else return ⟨.hex done (left - 1) value high, s.tokens⟩
  | .pairBackslash done high => if c = '\\' then some ⟨.pairLetter done high, s.tokens⟩ else none
  | .pairLetter done high => if c = 'u' then some ⟨.hex done 4 0 (some high), s.tokens⟩ else none

/-- The tokens of a document, in order. Leading zeros, fractions, exponents, signs and words are no
tokens. -/
def scan? (t : Text) : Option (List Token) := do
  let s ← t.foldlM step {}
  match s.mode with
  | .between => some s.tokens.reverse
  | .number n => some (Token.number n :: s.tokens).reverse
  | _ => none

end Token

end ContractAtlas.Settings
