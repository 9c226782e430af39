import ContractAtlas.Pattern.Search

/-! Named patterns, sets of them, and the pieces they are made of. -/
namespace ContractAtlas

/-- A pattern with the name it is reported under. -/
structure Rule where
  name : String
  pattern : Pattern

/-- Rules that say the same thing about a text, in order of preference. -/
structure RuleSet where
  name : String
  rules : List Rule

namespace RuleSet

/-- Whether some rule of the set matches somewhere in the text. -/
def occursIn (s : RuleSet) (t : Text) : Bool := s.rules.any fun r => r.pattern.occursIn t

/-- The first rule that matches. -/
def first? (s : RuleSet) (t : Text) : Option Rule := s.rules.find? fun r => r.pattern.occursIn t

/-- All rules that match, in order. -/
def matching (s : RuleSet) (t : Text) : List Rule := s.rules.filter fun r => r.pattern.occursIn t

end RuleSet

namespace Pattern

/-- Any white space, or none. -/
def gap : Pattern := many Text.isBlank

/-- At least one white space character. -/
def space : Pattern := several Text.isBlank

/-- At least one word character. -/
def word : Pattern := several Text.isWord

/-- Word characters, or none. -/
def wordRest : Pattern := many Text.isWord

/-- Digits, or none. -/
def digits : Pattern := many Text.isDigit

def isNoneOf (cs : List Char) (c : Char) : Bool := !cs.contains c

/-- Any stretch without the given characters. -/
def without (cs : List Char) : Pattern := many (isNoneOf cs)

/-- A word that starts with a capital letter of ASCII. -/
def capitalized : Pattern := one Char.isUpper ++ wordRest

/-- An opening parenthesis after any gap. -/
def opening : Pattern := gap ++ exactly '('

/-- An opening parenthesis or brace after any gap. -/
def openingOrBrace : Pattern := gap ++ one fun c => c == '(' || c == '{'

/-- A parenthesised stretch without a closing parenthesis inside. -/
def parenthesized : Pattern := exactly '(' ++ without [')'] ++ exactly ')'

/-- A call of the word `name`. -/
def callOf (name : String) : Pattern := wordEdge ++ literal name ++ opening

/-- A member `name` that is called or given call options. -/
def selects (name : String) : Pattern := exactly '.' ++ literal name ++ openingOrBrace

/-- A member access on the word `name`. -/
def memberOf (name : String) : Pattern := wordEdge ++ literal name ++ exactly '.' ++ word

/-- An assembly block up to some place before its first closing brace. -/
def assemblyHead : Pattern := wordEdge ++ literal "assembly" ++ gap ++ exactly '{' ++ without ['}']

/-- What follows a parenthesised cast: a call of one of its members. -/
def memberCall : Pattern := gap ++ exactly '.' ++ word ++ opening

end Pattern

end ContractAtlas
