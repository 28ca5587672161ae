/-!
Doubles as exact numbers. A double is a sign and a magnitude, the 63 bits below the sign. Finite
magnitudes are whole multiples of `2 ^ -1074`, and `Magnitude.nearest` finds the one closest to a
given ratio of naturals.
-/
namespace Lox

/-- The 63 bits below the sign of a double; magnitudes increase with the numbers they stand
for. -/
abbrev Magnitude := Nat

/-- The whole number closest to `n / d`, the even one of two equally close. -/
def divRound (n d : Nat) : Nat :=
  let q := n / d
  let r := n % d
  if 2 * r < d then q else if 2 * r = d then q + q % 2 else q + 1

namespace Magnitude

/-- The number of magnitudes that share a scale: `2 ^ 52`. -/
def binade : Nat := 0x10000000000000

/-- The magnitude of infinity; those above it are not numbers. -/
def infinite : Magnitude := 2047 * binade

def scale (k : Magnitude) : Nat := k / binade - 1

def significand (k : Magnitude) : Nat := if k < binade then k else binade + k % binade

/-- Finite magnitudes are multiples of two to the power of the negative of this. -/
def places : Nat := 1074

def one : Nat := Nat.pow 2 places

/-- A finite magnitude in units of `2 ^ -1074`. -/
def units (k : Magnitude) : Nat := k.significand * Nat.pow 2 k.scale

/-- The magnitude closest to `num / den`, the one with an even significand of two equally close. A
significand rounded up to the size of two binades carries into the scale, and past the last finite
magnitude lies infinity. -/
def nearest (num den : Nat) : Magnitude :=
  let n := num * one
  let scale := Nat.log2 (n / den) - 52
  min infinite (scale * binade + divRound n (den * Nat.pow 2 scale))

end Magnitude

namespace Number

def signBit : Nat := 0x8000000000000000

def isNegative (x : Float) : Bool := signBit ≤ x.toBits.toNat

def magnitude (x : Float) : Magnitude := x.toBits.toNat % signBit

def ofMagnitude (negative : Bool) (k : Magnitude) : Float :=
  Float.ofBits (UInt64.ofNat (if negative then signBit + k else k))

end Number
end Lox
