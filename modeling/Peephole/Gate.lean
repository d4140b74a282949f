import Peephole.Angle

/-!
# Gates

A `Gate` is one of the standard gates, some of which carry an angle, or a custom gate known only by
its name, the number of qubits it acts on and its parameters.
-/

set_option autoImplicit false
set_option relaxedAutoImplicit false

namespace Peephole

/-- The gates with a fixed meaning. -/
inductive StandardGate where
  | x
  | y
  | z
  | h
  | s
  | sdg
  | t
  | tdg
  | p (angle : Angle)
  | rx (angle : Angle)
  | ry (angle : Angle)
  | rz (angle : Angle)
  | cx
  | cy
  | cz
  | swap
  | ccx
deriving BEq, DecidableEq, Inhabited

namespace StandardGate

/-- The name of a gate in program text. -/
def name : StandardGate → String
  | x => "x"
  | y => "y"
  | z => "z"
  | h => "h"
  | s => "s"
  | sdg => "sdg"
  | t => "t"
  | tdg => "tdg"
  | p _ => "p"
  | rx _ => "rx"
  | ry _ => "ry"
  | rz _ => "rz"
  | cx => "cx"
  | cy => "cy"
  | cz => "cz"
  | swap => "swap"
  | ccx => "ccx"

/-- The number of qubits a gate acts on. -/
def arity : StandardGate → Nat
  | cx => 2
  | cy => 2
  | cz => 2
  | swap => 2
  | ccx => 3
  | _ => 1

/-- The angles of a gate. -/
def params : StandardGate → List Angle
  | p θ => [θ]
  | rx θ => [θ]
  | ry θ => [θ]
  | rz θ => [θ]
  | _ => []

/-- The gates without a parameter. -/
def unparameterized : List StandardGate :=
  [x, y, z, h, s, sdg, t, tdg, cx, cy, cz, swap, ccx]

/-- The standard gate with this name and exactly these parameters; `phase` is a second name of
`p`. -/
def ofName? : String → List Angle → Option StandardGate
  | "x", [] => some x
  | "y", [] => some y
  | "z", [] => some z
  | "h", [] => some h
  | "s", [] => some s
  | "sdg", [] => some sdg
  | "t", [] => some t
  | "tdg", [] => some tdg
  | "cx", [] => some cx
  | "cy", [] => some cy
  | "cz", [] => some cz
  | "swap", [] => some swap
  | "ccx", [] => some ccx
  | "p", [θ] => some (p θ)
  | "phase", [θ] => some (p θ)
  | "rx", [θ] => some (rx θ)
  | "ry", [θ] => some (ry θ)
  | "rz", [θ] => some (rz θ)
  | _, _ => none

end StandardGate

/-- A gate of a program. -/
inductive Gate where
  | standard (gate : StandardGate)
  | custom (name : String) (arity : Nat) (params : List Angle)
deriving BEq, DecidableEq, Inhabited

namespace Gate

def name : Gate → String
  | standard g => g.name
  | custom n _ _ => n

def arity : Gate → Nat
  | standard g => g.arity
  | custom _ n _ => n

def params : Gate → List Angle
  | standard g => g.params
  | custom _ _ ps => ps

def isStandard : Gate → Bool
  | standard _ => true
  | custom _ _ _ => false

/-- Whether a gate is the given standard gate. -/
def is : Gate → StandardGate → Bool
  | standard g, other => g == other
  | custom _ _ _, _ => false

/-- The parameters of a gate in parentheses, or nothing if there are none. -/
def renderParams (params : List Angle) : String :=
  if params.isEmpty then "" else "(" ++ ", ".intercalate (params.map Angle.render) ++ ")"

/-- The name of a gate with its parameters. -/
def render (g : Gate) : String :=
  g.name ++ renderParams g.params

end Gate

end Peephole
