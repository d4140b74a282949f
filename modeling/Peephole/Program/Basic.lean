import Peephole.Gate
import Peephole.Qubit

/-!
# Programs

A `Program` is a list of instructions, each of which declares qubits or applies a gate. An
application has targets, on which its gate acts, and guards, which say when it acts: a plain guard
asks its qubit to be one, a negated guard asks it to be zero.
-/

set_option autoImplicit false
set_option relaxedAutoImplicit false

namespace Peephole

/-- A condition on one qubit. -/
structure Guard where
  qubit : Qubit
  negated : Bool
deriving DecidableEq, Inhabited

/-- A gate applied to targets under guards. -/
structure Application where
  gate : Gate
  targets : List Qubit
  guards : List Guard
deriving BEq, DecidableEq, Inhabited

namespace Application

def isGuarded (a : Application) : Bool :=
  !a.guards.isEmpty

/-- Whether two applications have the same gate, the same targets and the same set of guards. -/
def sameEffect (a b : Application) : Bool :=
  a.gate == b.gate && a.targets == b.targets &&
    a.guards.all (b.guards.contains ·) && b.guards.all (a.guards.contains ·)

end Application

/-- One instruction of a program. -/
inductive Instruction where
  | declare (declaration : Declaration)
  | apply (application : Application)
deriving BEq, DecidableEq, Inhabited

namespace Instruction

def declaration? : Instruction → Option Declaration
  | declare d => some d
  | apply _ => none

def application? : Instruction → Option Application
  | declare _ => none
  | apply a => some a

end Instruction

/-- A list of instructions in the order in which they take effect. -/
abbrev Program := List Instruction

namespace Program

def declarations (p : Program) : List Declaration :=
  p.filterMap Instruction.declaration?

def applications (p : Program) : List Application :=
  p.filterMap Instruction.application?

def gateCount (p : Program) : Nat :=
  p.applications.length

end Program

end Peephole
