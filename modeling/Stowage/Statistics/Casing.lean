/-!
# Casing of names

A name is split into words, and the words are joined again in one of several customary ways.  Only
ASCII letters and digits are told apart; all other characters are neither.

* `Casing.words` — the words of a name.
* `Casing.apply` — a name in a given casing.
-/

set_option autoImplicit false

namespace Stowage

/-- A customary way to write a name of several words. -/
inductive Casing where
  | snake
  | upperSnake
  | kebab
  | camel
  | pascal
  | title
  deriving DecidableEq, Repr

namespace Casing

/-- Whether a character separates words and belongs to none. -/
def isSeparator (c : Char) : Bool := c == '_' || c == '-' || c == ' '

/-- Whether a new word starts between two neighbours. -/
def startsWord (left right : Char) : Bool :=
  (left.isLower && right.isUpper) || (left.isUpper && right.isDigit) ||
  (left.isDigit && right.isUpper) || (left.isDigit && right.isLower) ||
  (left.isLower && right.isDigit)

/-- Whether `mid` is the last capital after an acronym and starts a word of its own. -/
def endsAcronym (left mid : Char) (right? : Option Char) : Bool :=
  left.isUpper && mid.isUpper && right?.any Char.isLower

/-- The words of the characters that follow `left?`, where `word` holds the characters of the current
word so far, last one first; words may be empty. -/
def splitFrom : Option Char → List Char → List Char → List (List Char)
  | _, word, [] => [word.reverse]
  | left?, word, c :: rest =>
    if isSeparator c then word.reverse :: splitFrom (some c) [] rest
    else if left?.any fun left => startsWord left c || endsAcronym left c rest.head? then
      word.reverse :: splitFrom (some c) [c] rest
    else splitFrom (some c) (c :: word) rest

def words (name : List Char) : List (List Char) :=
  (splitFrom none [] name).filter fun word => !word.isEmpty

def lower (word : List Char) : List Char := word.map Char.toLower

def upper (word : List Char) : List Char := word.map Char.toUpper

/-- A word with a capital first letter and small letters after it. -/
def capitalized : List Char → List Char
  | [] => []
  | c :: rest => c.toUpper :: lower rest

/-- The first word in small letters and the others capitalized. -/
def humped : List (List Char) → List (List Char)
  | [] => []
  | word :: rest => lower word :: rest.map capitalized

/-- The words of a name as they are written in a casing. -/
def spell (c : Casing) (words : List (List Char)) : List (List Char) :=
  match c with
  | .snake => words.map lower
  | .upperSnake => words.map upper
  | .kebab => words.map lower
  | .camel => humped words
  | .pascal => words.map capitalized
  | .title => words.map capitalized

def glue : Casing → List Char
  | .snake => ['_']
  | .upperSnake => ['_']
  | .kebab => ['-']
  | .camel => []
  | .pascal => []
  | .title => [' ']

def apply (c : Casing) (name : String) : String :=
  String.ofList (c.glue.intercalate (c.spell (words name.toList)))

end Casing

end Stowage
