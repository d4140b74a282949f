import Peephole.Decimal.Shortest

/-!
# Reading decimals

`nearest` reads a decimal as the binary64 number closest to it. `scaled` reads it in two roundings:
the significand is rounded first and then multiplied or divided by a rounded power of ten, so that
the last bit can differ from `nearest` when the significand has more than fifteen digits or the
exponent is beyond twenty-two.
-/

set_option autoImplicit false
set_option relaxedAutoImplicit false

namespace Peephole.Decimal

/-- Positive infinity. -/
def infinity : Float :=
  1.0 / 0.0

/-- The number nearest to `significand * 10 ^ exponent`; too large a value is infinite. Values far
outside the range are settled by their size alone. -/
def nearest (significand : Nat) (exponent : Int) : Float :=
  if significand = 0 then 0.0
  else
    let size := (digitCount significand : Int) + exponent
    if 310 < size then infinity
    else if size < -330 then 0.0
    else Float.ofScientific significand (exponent < 0) exponent.natAbs

/-- The power of ten nearest to `10 ^ n`, for `n` up to 308. -/
def powerOfTen (n : Nat) : Float :=
  Float.ofScientific 1 false n

/-- Divides by `10 ^ n` in steps of at most `10 ^ 308`, stopping at zero. -/
def scaleDown (n : Nat) (x : Float) : Float :=
  if n ≤ 308 then x / powerOfTen n
  else if x == 0.0 then x
  else scaleDown (n - 308) (x / powerOfTen 308)
termination_by n

/-- Reads `significand * 10 ^ exponent` in two roundings; `none` if the result is not finite. -/
def scaled (significand : Nat) (exponent : Int) : Option Float :=
  let x := Float.ofScientific significand false 0
  match exponent with
  | .negSucc n => some (scaleDown (n + 1) x)
  | .ofNat n =>
    if n ≤ 308 then
      let y := x * powerOfTen n
      if y.isInf then none else some y
    else if x == 0.0 then some x
    else none

end Peephole.Decimal
