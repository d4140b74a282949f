import Peephole.Decimal.Shortest

/-!
# Laying out a number as text

A `Layout` collects the decisions of one output format: which exponents are written positionally,
how a whole number ends, which of two equally near decimals is taken, and the texts of infinities
and of not-a-number. `Layout.render` writes the shortest digits of a number accordingly.

`Layout.plain` is the format of angles in program text and of numeric tokens in messages: never an
exponent, and no fraction for a whole number.
-/

set_option autoImplicit false
set_option relaxedAutoImplicit false

namespace Peephole.Decimal

/-- The decisions of a number format. -/
structure Layout where
  tie : Tie
  /-- Whether a number whose first digit has this place is written without an exponent. -/
  positional : Int → Bool
  /-- What follows the digits of a whole number that is written positionally. -/
  wholeEnding : String
  infinity : String
  negativeInfinity : String
  notANumber : String

/-- Digits without an exponent: zeros fill the gap between the digits and the point. -/
def Digits.positional (wholeEnding : String) (d : Digits) : String :=
  if d.exponent < 0 then
    "0." ++ String.ofList (List.replicate (-d.exponent - 1).toNat '0' ++ d.digits)
  else
    let whole := d.exponent.toNat + 1
    if d.digits.length ≤ whole then
      String.ofList (d.digits ++ List.replicate (whole - d.digits.length) '0') ++ wholeEnding
    else
      String.ofList (d.digits.take whole) ++ "." ++ String.ofList (d.digits.drop whole)

/-- Digits with one digit before the point and a signed exponent. -/
def Digits.scientific (d : Digits) : String :=
  let significand := match d.digits with
    | [] => ""
    | [c] => String.ofList [c]
    | c :: rest => String.ofList (c :: '.' :: rest)
  let sign := if d.exponent < 0 then "-" else "+"
  significand ++ "e" ++ sign ++ Nat.repr d.exponent.natAbs

/-- The text of a number. A negative zero keeps its sign. -/
def Layout.render (layout : Layout) (x : Float) : String :=
  if x.isNaN then layout.notANumber
  else
    let negative := x.toBits.toNat >>> 63 = 1
    if x.isInf then (if negative then layout.negativeInfinity else layout.infinity)
    else
      let d := (Binary.ofFloat x).shortest layout.tie
      let body := if layout.positional d.exponent then d.positional layout.wholeEnding
        else d.scientific
      if negative then "-" ++ body else body

/-- Numbers in program text: always positional, and a whole number has no fraction. -/
def Layout.plain : Layout where
  tie := .upward
  positional := fun _ ↦ true
  wholeEnding := ""
  infinity := "inf"
  negativeInfinity := "-inf"
  notANumber := "NaN"

end Peephole.Decimal
