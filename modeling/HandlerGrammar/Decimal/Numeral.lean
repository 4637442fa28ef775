/-! # Decimal numerals

Numerals are read exactly: a whole number as an integer, a numeral with a fraction or an exponent
as an integer scaled by a power of ten. -/
namespace HandlerGrammar
set_option autoImplicit false

/-- The number `coefficient * 10 ^ exponent`, negated if `negative`; zero keeps its sign. -/
structure Decimal where
  negative : Bool
  coefficient : Nat
  exponent : Int
  deriving DecidableEq, Repr

namespace Decimal

def digitValue (c : Char) : Nat := c.toNat - '0'.toNat

/-- The number that a run of digits denotes. -/
def ofDigits (cs : List Char) : Nat :=
  cs.foldl (fun n c => 10 * n + digitValue c) 0

/-- The whole number written as digits after an optional sign. -/
def integer : List Char → Int
  | '-' :: ds => -(ofDigits ds : Int)
  | '+' :: ds => ofDigits ds
  | ds => ofDigits ds

/-- The number written as a whole part, an optional fraction and an optional exponent. -/
def ofNumeral (cs : List Char) : Decimal :=
  let negative := cs.head? == some '-'
  let body := if negative then cs.tail else cs
  let whole := body.takeWhile Char.isDigit
  let afterWhole := body.dropWhile Char.isDigit
  let hasPoint := afterWhole.head? == some '.'
  let fraction := if hasPoint then afterWhole.tail.takeWhile Char.isDigit else []
  let afterFraction := if hasPoint then afterWhole.tail.dropWhile Char.isDigit else afterWhole
  ⟨negative, ofDigits (whole ++ fraction), integer afterFraction.tail - fraction.length⟩

end Decimal
end HandlerGrammar
