import Lox.Number.Magnitude
/-!
Decimals and the doubles that they name. `Decimal.magnitude` reads a decimal, rounding it to the
closest double; `Magnitude.shortest` finds the decimal with the fewest digits that reads back.
-/
namespace Lox

/-- The number `digits * 10 ^ exponent`. -/
structure Decimal where
  digits : Nat
  exponent : Int
deriving DecidableEq

namespace Decimal

def magnitude (d : Decimal) : Magnitude :=
  if 0 ≤ d.exponent then Magnitude.nearest (d.digits * Nat.pow 10 d.exponent.toNat) 1
  else Magnitude.nearest d.digits (Nat.pow 10 (-d.exponent).toNat)

/-- The decimal written as `whole`, a point and `fraction`, both in digits. -/
def ofDigits (whole fraction : List Char) : Decimal :=
  ⟨Nat.ofDigitChars 10 (whole ++ fraction) 0, -fraction.length⟩

end Decimal

namespace Magnitude

/-- The finite magnitude divided by `10 ^ p`, as a ratio of naturals. -/
def ratio (k : Magnitude) (p : Int) : Nat × Nat :=
  if 0 ≤ p then (k.units, one * Nat.pow 10 p.toNat) else (k.units * Nat.pow 10 (-p).toNat, one)

/-- The multiple of `10 ^ p` that reads back as `k`. Only the two neighbours of `k` on that grid
can; of two that do the closer is taken, and of two equally close the even one. -/
def onGrid (k : Magnitude) (p : Int) : Option Decimal :=
  let (n, d) := k.ratio p
  let below : Decimal := ⟨n / d, p⟩
  let above : Decimal := ⟨n / d + 1, p⟩
  if below.magnitude = k then
    if above.magnitude = k then some ⟨divRound n d, p⟩ else some below
  else if above.magnitude = k then some above else none

/-- No positive magnitude lies below ten to the power of the negative of this. -/
def decimalPlaces : Nat := 324

/-- The place of the first digit of a positive finite magnitude: `10 ^ e` is the greatest power of
ten that is not above it. -/
def leadingPlace (k : Magnitude) : Int :=
  ((Nat.toDigits 10 (k.units * Nat.pow 10 decimalPlaces / one)).length : Int) - 1 - decimalPlaces

def exact (k : Magnitude) : Decimal := ⟨k.units * Nat.pow 5 places, -places⟩

/-- The decimal of fewest digits that reads back as the positive finite `k`, and the closest to
`k` of these. Seventeen digits are enough for every double. -/
def shortest (k : Magnitude) : Decimal :=
  ((List.range 17).findSome? fun i : Nat => k.onGrid (k.leadingPlace - i)).getD k.exact

end Magnitude
end Lox
