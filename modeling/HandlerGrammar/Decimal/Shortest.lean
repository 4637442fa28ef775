import HandlerGrammar.Decimal.Binary

/-! # The shortest decimal of a binary magnitude

A decimal stands for a magnitude when it rounds to it. Among those decimals the shortest is the
one on the coarsest grid of a power of ten; when two neighbours on that grid qualify it is the
nearer, and the larger at equal distance. -/
namespace HandlerGrammar.BinaryFormat
set_option autoImplicit false

variable (F : BinaryFormat)

/-- The multiple of `10 ^ e` that stands for the magnitude numbered `k`, if there is one. The
magnitude and the ends of its rounding interval are counted in quarters of its last place. -/
def onGrid (k : Nat) (e : Int) : Option Nat :=
  let (m, q) := F.decompose k
  let quarters (n : Nat) : Nat :=
    let (n, _) := scaled n 1 2 (q - 2)
    (scaled n 1 10 (-e)).1
  let step : Nat := (scaled 1 1 2 (q - 2)).2 * (scaled 1 1 10 (-e)).2
  let least := Nat.pow 2 (F.precision - 1)
  let narrowBelow := k % least = 0 ∧ least < k
  let value := quarters (4 * m)
  let lower := quarters (if narrowBelow then 4 * m - 1 else 4 * m - 2)
  let upper := quarters (4 * m + 2)
  let inside (x : Nat) : Bool :=
    if m % 2 = 0 then lower ≤ x && x ≤ upper else lower < x && x < upper
  let below := value / step
  match inside (below * step), inside ((below + 1) * step) with
  | true, false => some below
  | false, true => some (below + 1)
  | true, true => some (if 2 * (value % step) < step then below else below + 1)
  | false, false => none

/-- The shortest decimal that stands for the finite magnitude numbered `k`. -/
def shortest (k : Nat) : Option Decimal :=
  if k = 0 then some ⟨false, 0, 0⟩
  else
    let steps := F.exponentBound + (1 - F.leastExponent).toNat + 1
    (List.range steps).findSome? fun i =>
      let e : Int := (F.exponentBound : Int) - (i : Nat)
      (F.onGrid k e).map fun n => ⟨false, n, e⟩

end HandlerGrammar.BinaryFormat
