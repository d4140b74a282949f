/-!
# Digits

The values of digits in bases up to sixteen, and of numbers written with them.
-/

set_option autoImplicit false
set_option relaxedAutoImplicit false

namespace Peephole.Text

def isDigit (c : Char) : Bool :=
  '0' ≤ c && c ≤ '9'

/-- The value of a decimal digit. -/
def digitValue (c : Char) : Nat :=
  c.toNat - '0'.toNat

/-- The value of a hexadecimal digit. -/
def hexValue? (c : Char) : Option Nat :=
  if isDigit c then some (digitValue c)
  else if 'a' ≤ c && c ≤ 'f' then some (c.toNat - 'a'.toNat + 10)
  else if 'A' ≤ c && c ≤ 'F' then some (c.toNat - 'A'.toNat + 10)
  else none

/-- The value of a digit in a base up to sixteen. -/
def digit? (base : Nat) (c : Char) : Option Nat :=
  (hexValue? c).filter (· < base)

/-- The number that digits give in a base. There is at least one digit. -/
def number? (base : Nat) : List Char → Option Nat
  | [] => none
  | ds => ds.foldlM (fun n c ↦ (digit? base c).map (base * n + ·)) 0

end Peephole.Text
