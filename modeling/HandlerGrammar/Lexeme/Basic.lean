/-! # Lexemes

A line is cut into lexemes of seven categories. Each category has a longest match at the start of
a text, given by its length, with length zero for no match:

* `commentLength`: `//` and the rest of the line, or `/*` through the next `*/`;
* `floatLength`: a number with a fraction, an exponent or both;
* `integerLength`: digits after an optional minus sign;
* `boolLength`: `true` or `false`;
* `stringLength`: text between double quotes, a backslash taking the next character with it;
* `wordLength`: a letter or underscore, then letters, digits and underscores;
* `symbolLength`: a two-character operator or any other single character.

Letters and digits are the ASCII ones. -/
namespace HandlerGrammar
set_option autoImplicit false

inductive Category where
  | comment | float | integer | bool | string | word | symbol
  deriving DecidableEq, Repr

structure Lexeme where
  category : Category
  text : List Char
  deriving DecidableEq, Repr

namespace Category

/-! ## Numbers -/

def digitsLength (cs : List Char) : Nat := (cs.takeWhile Char.isDigit).length

/-- The match of `length` after an optional minus sign. -/
def negatable (length : List Char → Nat) : List Char → Nat
  | '-' :: cs => if length cs = 0 then 0 else length cs + 1
  | cs => length cs

def integerLength : List Char → Nat := negatable digitsLength

/-- `e` or `E`, an optional sign and digits. -/
def exponentLength : List Char → Nat
  | c :: cs =>
    if c = 'e' ∨ c = 'E' then
      let sign := if cs.head? = some '+' ∨ cs.head? = some '-' then 1 else 0
      let digits := digitsLength (cs.drop sign)
      if digits = 0 then 0 else 1 + sign + digits
    else 0
  | [] => 0

/-- A point and digits. -/
def fractionLength : List Char → Nat
  | '.' :: cs => if digitsLength cs = 0 then 0 else 1 + digitsLength cs
  | _ => 0

def unsignedFloatLength (cs : List Char) : Nat :=
  let whole := digitsLength cs
  let fraction := fractionLength (cs.drop whole)
  let exponent := exponentLength (cs.drop (whole + fraction))
  if whole = 0 ∨ fraction + exponent = 0 then 0 else whole + fraction + exponent

def floatLength : List Char → Nat := negatable unsignedFloatLength

/-! ## Words -/

def isWordStart (c : Char) : Bool := c.isAlpha || c == '_'

def isWordPart (c : Char) : Bool := c.isAlphanum || c == '_'

def wordLength : List Char → Nat
  | c :: cs => if isWordStart c then 1 + (cs.takeWhile isWordPart).length else 0
  | [] => 0

/-- The length of `word` if the text starts with it. -/
def literalLength (word : List Char) (cs : List Char) : Nat :=
  if word.isPrefixOf cs then word.length else 0

def boolLength (cs : List Char) : Nat :=
  max (literalLength ['t', 'r', 'u', 'e'] cs) (literalLength ['f', 'a', 'l', 's', 'e'] cs)

/-! ## Delimited text -/

/-- The length of a text through the double quote that closes it. -/
def closingQuote : List Char → Option Nat
  | [] => none
  | '"' :: _ => some 1
  | ['\\'] => none
  | '\\' :: _ :: cs => (closingQuote cs).map (· + 2)
  | _ :: cs => (closingQuote cs).map (· + 1)

def stringLength : List Char → Nat
  | '"' :: cs => ((closingQuote cs).map (· + 1)).getD 0
  | _ => 0

/-- The length of a text through its first `*/`. -/
def closingStar : List Char → Option Nat
  | [] => none
  | '*' :: '/' :: _ => some 2
  | _ :: cs => (closingStar cs).map (· + 1)

def commentLength : List Char → Nat
  | '/' :: '/' :: cs => cs.length + 2
  | '/' :: '*' :: cs => ((closingStar cs).map (· + 2)).getD 0
  | _ => 0

/-! ## Symbols -/

def operators : List (List Char) :=
  [['=', '='], ['!', '='], ['<', '='], ['>', '='], ['&', '&'], ['|', '|'], ['-', '>']]

/-- A symbol of one character is any but a word character, a space or a double quote. -/
def isSymbol (c : Char) : Bool := !isWordPart c && c != ' ' && c != '"'

def symbolLength : List Char → Nat
  | c :: cs =>
    if operators.any (·.isPrefixOf (c :: cs)) then 2
    else if isSymbol c then 1
    else 0
  | [] => 0

/-! ## The longest match -/

/-- The length of the longest match of a category at the start of a text. -/
def longest : Category → List Char → Nat
  | comment => commentLength
  | float => floatLength
  | integer => integerLength
  | bool => boolLength
  | string => stringLength
  | word => wordLength
  | symbol => symbolLength

/-- The categories in the order in which they win ties. -/
def all : List Category := [comment, float, integer, bool, string, word, symbol]

end Category

/-- The category with the longest match and the length of that match, ties going to the category
that comes first. -/
def munch (cs : List Char) : Category × Nat :=
  Category.all.foldl
    (fun best c => if best.2 < c.longest cs then (c, c.longest cs) else best) (.comment, 0)

/-! ## Text that no lexeme covers -/

/-- The text of a string that is not closed. A last backslash with nothing to escape is left
out. -/
def unclosed : List Char → List Char
  | [] => []
  | ['\\'] => []
  | '\\' :: c :: cs => '\\' :: c :: unclosed cs
  | c :: cs => c :: unclosed cs

/-- The unreadable text when the line goes on with a string or a comment that it does not
close. -/
def fault? : List Char → Option (List Char)
  | '"' :: cs => if (Category.closingQuote cs).isNone then some ('"' :: unclosed cs) else none
  | '/' :: '*' :: cs => if (Category.closingStar cs).isNone then some ('/' :: '*' :: cs) else none
  | _ => none

/-- The lexemes of a line up to its end or its first fault. The first `skip` characters belong to
the lexeme before them. -/
def cutFrom (skip : Nat) : List Char → List Lexeme × Option (List Char)
  | [] => ([], none)
  | c :: cs =>
    match skip with
    | skip + 1 => cutFrom skip cs
    | 0 =>
      if c = ' ' then cutFrom 0 cs
      else match fault? (c :: cs) with
        | some fragment => ([], some fragment)
        | none =>
          let (category, length) := munch (c :: cs)
          let (lexemes, fault) := cutFrom (length - 1) cs
          (⟨category, (c :: cs).take length⟩ :: lexemes, fault)

/-- The lexemes of a line, spaces left out, and the text at which cutting stopped, if it did. -/
def cut (line : List Char) : List Lexeme × Option (List Char) := cutFrom 0 line

end HandlerGrammar
