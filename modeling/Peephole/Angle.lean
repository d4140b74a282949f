import Peephole.Decimal.Layout

/-!
# Angles

A gate parameter is an `Angle`: an arithmetic expression over numbers, named symbols and π.
`Angle.value?` evaluates it, `Angle.render` writes it with as few parentheses as its grammar allows,
and `==` compares two angles as trees, with their constants compared as numbers.
-/

set_option autoImplicit false
set_option relaxedAutoImplicit false

namespace Peephole

/-- A gate parameter. -/
inductive Angle where
  | constant (value : Float)
  | symbol (name : String)
  | pi
  | neg (operand : Angle)
  | add (left right : Angle)
  | sub (left right : Angle)
  | mul (left right : Angle)
  | div (left right : Angle)
deriving BEq, DecidableEq, Inhabited

namespace Angle

/-- The number nearest to π. -/
def piValue : Float :=
  3.141592653589793

/-- The number an angle stands for. It is missing when a symbol occurs or a divisor is zero. -/
def value? : Angle → Option Float
  | constant v => some v
  | symbol _ => none
  | pi => some piValue
  | neg e => e.value?.map (- ·)
  | add a b => do return (← a.value?) + (← b.value?)
  | sub a b => do return (← a.value?) - (← b.value?)
  | mul a b => do return (← a.value?) * (← b.value?)
  | div a b => do
    let divisor ← b.value?
    if divisor == 0.0 then none else return (← a.value?) / divisor

/-- Whether a symbol occurs. -/
def isSymbolic : Angle → Bool
  | constant _ => false
  | symbol _ => true
  | pi => false
  | neg e => e.isSymbolic
  | add a b => a.isSymbolic || b.isSymbolic
  | sub a b => a.isSymbolic || b.isSymbolic
  | mul a b => a.isSymbolic || b.isSymbolic
  | div a b => a.isSymbolic || b.isSymbolic

/-- How tightly the outermost operation binds. -/
def precedence : Angle → Nat
  | add _ _ => 1
  | sub _ _ => 1
  | mul _ _ => 2
  | div _ _ => 2
  | neg _ => 3
  | _ => 4

/-- Puts parentheses around the text of an angle that binds less tightly than `least`. -/
def enclose (least : Nat) (e : Angle) (text : String) : String :=
  if e.precedence < least then "(" ++ text ++ ")" else text

/-- The text of an angle. The right operand of a binary operation, which associates to the left,
must bind more tightly than the operation itself. -/
def render : Angle → String
  | constant v => Decimal.Layout.plain.render v
  | symbol name => name
  | pi => "pi"
  | neg e => "-" ++ e.enclose 4 e.render
  | add a b => a.enclose 1 a.render ++ " + " ++ b.enclose 2 b.render
  | sub a b => a.enclose 1 a.render ++ " - " ++ b.enclose 2 b.render
  | mul a b => a.enclose 2 a.render ++ "*" ++ b.enclose 3 b.render
  | div a b => a.enclose 2 a.render ++ "/" ++ b.enclose 3 b.render

end Angle

end Peephole
