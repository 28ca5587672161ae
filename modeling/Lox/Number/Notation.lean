import Lox.Number.Decimal
/-!
Written forms of a double. Both forms show the fewest digits that read back; they differ in where
the plain form ends and in how its parts are spelled, which is all that a `Notation` holds.
-/
namespace Lox

structure Notation where
  /-- The least place of a first digit that is written plainly. -/
  plainFrom : Int
  /-- The places of a first digit from here on are written with an exponent. -/
  plainBelow : Int
  /-- What follows a whole number in plain form. -/
  wholeEnd : String
  /-- What follows a single digit before an exponent. -/
  digitEnd : String
  exponentMark : String
  /-- What stands before an exponent that is not negative. -/
  plusSign : String
  exponentWidth : Nat
  infinity : String
  notANumber : String

namespace Notation

/-- Values printed by a program: plain from a thousandth to below ten million. -/
def printed : Notation where
  plainFrom := -3
  plainBelow := 7
  wholeEnd := ""
  digitEnd := ".0"
  exponentMark := "E"
  plusSign := ""
  exponentWidth := 1
  infinity := "Infinity"
  notANumber := "NaN"

/-- Literals in listings of tokens and trees: plain from `10 ^ -4` to below `10 ^ 16`, and always
with a point or an exponent. -/
def listed : Notation where
  plainFrom := -4
  plainBelow := 16
  wholeEnd := ".0"
  digitEnd := ""
  exponentMark := "e"
  plusSign := "+"
  exponentWidth := 2
  infinity := "inf"
  notANumber := "nan"

/-- Digits with the point behind the digit of place 0, the first digit being of place `e`. -/
def plain (f : Notation) (digits : List Char) (e : Int) : String :=
  if e < 0 then "0." ++ String.ofList (List.replicate (-e - 1).toNat '0' ++ digits)
  else
    let whole := e.toNat + 1
    if digits.length ≤ whole then
      String.ofList (digits ++ List.replicate (whole - digits.length) '0') ++ f.wholeEnd
    else String.ofList (digits.take whole) ++ "." ++ String.ofList (digits.drop whole)

def exponent (f : Notation) (e : Int) : String :=
  let digits := Nat.toDigits 10 e.natAbs
  f.exponentMark ++ (if e < 0 then "-" else f.plusSign) ++
    String.ofList (List.replicate (f.exponentWidth - digits.length) '0' ++ digits)

/-- Digits with the point behind the first, which is of place `e`. -/
def scientific (f : Notation) (digits : List Char) (e : Int) : String :=
  let mantissa :=
    match digits with
    | [d] => String.ofList [d] ++ f.digitEnd
    | _ => String.ofList (digits.take 1) ++ "." ++ String.ofList (digits.drop 1)
  mantissa ++ f.exponent e

/-- A positive decimal, without zeros behind its last other digit. -/
def decimal (f : Notation) (d : Decimal) : String :=
  let all := Nat.toDigits 10 d.digits
  let e := d.exponent + all.length - 1
  let digits := (all.reverse.dropWhile (· = '0')).reverse
  if f.plainFrom ≤ e ∧ e < f.plainBelow then f.plain digits e else f.scientific digits e

def magnitude (f : Notation) (k : Magnitude) : String :=
  if k = 0 then "0" ++ f.wholeEnd
  else if k = Magnitude.infinite then f.infinity
  else f.decimal k.shortest

/-- A minus sign before every negative number, the negative zero too. -/
def write (f : Notation) (x : Float) : String :=
  let k := Number.magnitude x
  if Magnitude.infinite < k then f.notANumber
  else (if Number.isNegative x then "-" else "") ++ f.magnitude k

end Notation
end Lox
