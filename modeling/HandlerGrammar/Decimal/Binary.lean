import HandlerGrammar.Decimal.Numeral

/-! # Binary floating-point formats

A finite magnitude of a format is `m * 2 ^ q` with `m` below `2 ^ precision` and `q` at least the
format's least exponent. Magnitudes are numbered from zero in increasing order, infinity after the
largest finite one; this number, with the sign in front, is the encoding of a value in bits. -/
namespace HandlerGrammar
set_option autoImplicit false

structure BinaryFormat where
  width : Nat
  precision : Nat
  deriving DecidableEq, Repr

/-- The quotient rounded to the nearest integer, halves to the even one. -/
def roundHalfEven (n d : Nat) : Nat :=
  let q := n / d
  let r := n % d
  if 2 * r < d then q
  else if d < 2 * r then q + 1
  else q + q % 2

/-- The fraction `n / d * b ^ e`, as numerator and denominator. -/
def scaled (n d b : Nat) (e : Int) : Nat × Nat :=
  if 0 ≤ e then (n * Nat.pow b e.toNat, d) else (n, d * Nat.pow b (-e).toNat)

namespace BinaryFormat

def single : BinaryFormat := ⟨32, 24⟩
def double : BinaryFormat := ⟨64, 53⟩

variable (F : BinaryFormat)

/-- No magnitude of the format reaches `2 ^ F.exponentBound`. -/
def exponentBound : Nat := Nat.pow 2 (F.width - F.precision - 1)

def leastExponent : Int := 3 - (F.exponentBound : Int) - F.precision

def infinity : Nat := (Nat.pow 2 (F.width - F.precision) - 1) * Nat.pow 2 (F.precision - 1)

/-- The exponent `q` for which the magnitude `n / d` has a significand of `F.precision` bits, or
the least exponent if that is larger. -/
def exponentOf (n d : Nat) : Int :=
  let q := (n.log2 : Int) - d.log2 - F.precision
  let (n', d') := scaled n d 2 (-q)
  max F.leastExponent (if n' / d' < Nat.pow 2 F.precision then q else q + 1)

/-- The number of the magnitude nearest to `n / d`, ties to the even significand. -/
def roundFraction (n d : Nat) : Nat :=
  if n = 0 then 0
  else
    let q := F.exponentOf n d
    let (n', d') := scaled n d 2 (-q)
    min F.infinity ((q - F.leastExponent).toNat * Nat.pow 2 (F.precision - 1) + roundHalfEven n' d')

/-- The number of the magnitude nearest to that of `x`. Exponents out of the format's reach are
settled first, so that no power of ten grows with them. -/
def round (x : Decimal) : Nat :=
  if x.coefficient = 0 then 0
  else if (F.exponentBound : Int) ≤ x.exponent then F.infinity
  else if x.coefficient.log2 + 1 + x.exponent < F.leastExponent then 0
  else
    let (n, d) := scaled x.coefficient 1 10 x.exponent
    F.roundFraction n d

/-- The bits of a magnitude with its sign. -/
def bits (negative : Bool) (magnitude : Nat) : Nat :=
  if negative then Nat.pow 2 (F.width - 1) + magnitude else magnitude

/-- Significand and exponent of the finite magnitude with number `k`. -/
def decompose (k : Nat) : Nat × Int :=
  let field := k / Nat.pow 2 (F.precision - 1)
  let rest := k % Nat.pow 2 (F.precision - 1)
  if field = 0 then (rest, F.leastExponent)
  else (rest + Nat.pow 2 (F.precision - 1), F.leastExponent + (field - 1 : Nat))

end BinaryFormat
end HandlerGrammar
