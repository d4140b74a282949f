/-!
# The fewest decimal digits of a binary number

A finite binary64 magnitude is `mantissa * 2 ^ exponent`. The reals that round to it form an
interval, half a gap wide on each side, whose ends belong to it exactly when the mantissa is even.
`shortest` selects the decimal with the fewest digits inside that interval, and among those the one
nearest to the magnitude; two decimals that are equally near are told apart by a `Tie` rule.

All comparisons are between naturals. On the grid of the multiples of `10 ^ k`, `Binary.step` and
`Binary.quarter` measure one grid step and a quarter of the last binary place in one common unit,
so a multiple of either is an integer.
-/

set_option autoImplicit false
set_option relaxedAutoImplicit false

namespace Peephole.Decimal

/-- Which of two equally near decimals is taken: the one with an even last digit, or the larger. -/
inductive Tie where
  | toEven
  | upward
deriving DecidableEq, Repr

/-- A finite magnitude `mantissa * 2 ^ exponent`. `narrowBelow` marks a power of two, where the gap
to the next smaller magnitude is half the gap to the next larger one. -/
structure Binary where
  mantissa : Nat
  exponent : Int
  narrowBelow : Bool
deriving DecidableEq, Repr

/-- The magnitude of a finite number, its sign dropped. -/
def Binary.ofFloat (x : Float) : Binary :=
  let bits := x.toBits.toNat
  let biased : Nat := (bits >>> 52) % (1 <<< 11)
  let fraction : Nat := bits % (1 <<< 52)
  if biased = 0 then ⟨fraction, -1074, false⟩
  else ⟨(1 <<< 52) + fraction, (biased : Int) - 1075, fraction = 0 && biased > 1⟩

/-- One step of the grid of multiples of `10 ^ k`, in the unit shared with `Binary.quarter`. -/
def Binary.step (x : Binary) (k : Int) : Nat :=
  Nat.pow 10 k.toNat * Nat.pow 2 (2 - x.exponent).toNat

/-- A quarter of the last binary place, in the unit shared with `Binary.step`. -/
def Binary.quarter (x : Binary) (k : Int) : Nat :=
  Nat.pow 10 (-k).toNat * Nat.pow 2 (x.exponent - 2).toNat

/-- Whether `c * 10 ^ k` is one of the reals that round to `x`. -/
def Binary.readsBack (x : Binary) (k : Int) (c : Nat) : Bool :=
  let low := (if x.narrowBelow then 4 * x.mantissa - 1 else 4 * x.mantissa - 2) * x.quarter k
  let high := (4 * x.mantissa + 2) * x.quarter k
  let point := c * x.step k
  if x.mantissa % 2 = 0 then low ≤ point && point ≤ high else low < point && point < high

/-- The multiple of `10 ^ k` that stands for `x`, if one of the two neighbours of `x` on that grid
rounds to `x`. -/
def Binary.onGrid (tie : Tie) (x : Binary) (k : Int) : Option Nat :=
  let value := 4 * x.mantissa * x.quarter k
  let below := value / x.step k
  match x.readsBack k below, x.readsBack k (below + 1) with
  | false, false => none
  | true, false => some below
  | false, true => some (below + 1)
  | true, true =>
    match compare (2 * value) ((2 * below + 1) * x.step k), tie with
    | .lt, _ => some below
    | .gt, _ => some (below + 1)
    | .eq, .toEven => some (if below % 2 = 0 then below else below + 1)
    | .eq, .upward => some (below + 1)

/-- The number of decimal digits of a positive natural. -/
def digitCount (n : Nat) : Nat :=
  (Nat.toDigits 10 n).length

/-- For a positive magnitude, the place of its first digit: `10 ^ e ≤ x < 10 ^ (e + 1)`. -/
def Binary.leading (x : Binary) : Int :=
  let numerator := x.mantissa * Nat.pow 2 x.exponent.toNat
  let denominator := Nat.pow 2 (-x.exponent).toNat
  if denominator ≤ numerator then (digitCount (numerator / denominator) : Int) - 1
  else -(digitCount ((denominator - 1) / numerator) : Int)

/-- The value `coefficient * 10 ^ k` exactly equal to `x`. -/
def Binary.exact (x : Binary) : Nat × Int :=
  if 0 ≤ x.exponent then (x.mantissa * Nat.pow 2 x.exponent.toNat, 0)
  else (x.mantissa * Nat.pow 5 (-x.exponent).toNat, x.exponent)

/-- A decimal in digits: `d₁.d₂d₃… * 10 ^ exponent`, without zeros at the end. -/
structure Digits where
  digits : List Char
  exponent : Int
deriving DecidableEq, Repr

/-- The digits of `coefficient * 10 ^ k`. -/
def Digits.ofScaled (coefficient : Nat) (k : Int) : Digits :=
  let all := Nat.toDigits 10 coefficient
  let significant := (all.reverse.dropWhile (· = '0')).reverse
  ⟨if significant = [] then ['0'] else significant, (all.length : Int) - 1 + k⟩

/-- The fewest digits that read back as the magnitude `x`: the grids are tried from coarse to fine,
and seventeen digits suffice for every binary64 number. -/
def Binary.shortest (tie : Tie) (x : Binary) : Digits :=
  if x.mantissa = 0 then ⟨['0'], 0⟩
  else
    let lead := x.leading
    let found := (List.range 17).findSome? fun (n : Nat) ↦
      (x.onGrid tie (lead - (n : Int))).map fun c ↦ (c, lead - (n : Int))
    let (coefficient, k) := found.getD x.exact
    Digits.ofScaled coefficient k

end Peephole.Decimal
