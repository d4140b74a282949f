import Peephole.Circuit.Edit
import Peephole.Circuit.Path

/-!
# Rules and their families

A `Rule` simplifies a short window of a wire. The rules come in four families: equal neighbours that
cancel (`cancel`), guards whose qubit is in a known state (`peep`), a gate between two Hadamards
(`sandwich`), and a controlled not between Hadamards on both of its wires (`reverse`).

A rule looks at windows of a fixed number of edges, its `Rule.depth`. Its two halves, the test
whether it applies to a window and the change it makes there, stand in one module for each family.
-/

set_option autoImplicit false
set_option relaxedAutoImplicit false

namespace Peephole

/-- The families of rules. -/
inductive Family where
  | nullGate
  | peepingControl
  | hSandwich
  | controlReversal
deriving DecidableEq, Repr, Inhabited

namespace Family

/-- The families in the order in which they are listed. -/
def all : List Family :=
  [nullGate, peepingControl, hSandwich, controlReversal]

def name : Family → String
  | nullGate => "null-gate"
  | peepingControl => "peeping-control"
  | hSandwich => "h-sandwich"
  | controlReversal => "control-reversal"

/-- The number of edges of the windows the rules of a family look at. -/
def depth : Family → Nat
  | nullGate => 2
  | peepingControl => 1
  | hSandwich => 3
  | controlReversal => 3

end Family

/-- A simplification of a window of a wire. -/
inductive Rule where
  /-- Two equal neighbours of the given gate cancel. -/
  | cancel (gate : StandardGate)
  /-- A guard on a qubit in a known basis state is decided. -/
  | peep
  /-- A gate between two Hadamards is replaced by another one. -/
  | sandwich (middle replacement : StandardGate)
  /-- A controlled not between Hadamards on both wires changes direction. -/
  | reverse
deriving BEq, Inhabited

namespace Rule

def family : Rule → Family
  | cancel _ => .nullGate
  | peep => .peepingControl
  | sandwich _ _ => .hSandwich
  | reverse => .controlReversal

def depth (r : Rule) : Nat :=
  r.family.depth

def name : Rule → String
  | cancel gate => Family.nullGate.name ++ "(" ++ gate.name ++ ")"
  | peep => Family.peepingControl.name
  | sandwich middle replacement =>
    Family.hSandwich.name ++ "(" ++ middle.name ++ "->" ++ replacement.name ++ ")"
  | reverse => Family.controlReversal.name

end Rule

/-- The rules of a family, in the order in which they are tried. -/
def Family.rules : Family → List Rule
  | nullGate => [.cancel .h, .cancel .x, .cancel .y, .cancel .z]
  | peepingControl => [.peep]
  | hSandwich => [.sandwich .x .z, .sandwich .z .x]
  | controlReversal => [.reverse]

/-- Why a rule cannot be carried out on a window. -/
inductive WindowFault where
  | notTwoNodes
  | notThreeNodes
  | unknownState
  | notAtGate
  | middleNotControlledNot
  | hadamardsLost
deriving DecidableEq, Repr

def WindowFault.message : WindowFault → String
  | notTwoNodes => "window is not two nodes"
  | notThreeNodes => "window is not three nodes"
  | unknownState => "guard wire state is unknown"
  | notAtGate => "window does not end at a gate"
  | middleNotControlledNot => "middle node is not a CX"
  | hadamardsLost => "control wire lost its Hadamards"

/-- Why a rule cannot be carried out. -/
inductive RuleFault where
  | circuit (fault : CircuitFault)
  | window (rule : Rule) (fault : WindowFault)

/-- A change of a circuit by a rule. -/
abbrev Reduction := EStateM RuleFault Circuit

namespace Reduction

variable {α : Type}

/-- A change of a circuit as part of a rule. -/
def edit (change : Edit α) : Reduction α :=
  change.adaptExcept .circuit

/-- Asks the circuit a question as part of a rule. -/
def ask (question : Circuit → Except CircuitFault α) : Reduction α :=
  edit (Edit.ask question)

end Reduction

/-- The gates of a window that has exactly `depth` edges and no sentinel after its first node, with
their numbers. -/
def Circuit.gateWindow (g : Circuit) (path : Path) (depth : Nat) : Option (List (Nat × GateNode)) :=
  if path.length = depth then
    path.window.mapM fun n ↦ (g.gate? n).map fun payload ↦ (n, payload)
  else none

/-- Whether a gate is an unguarded `kind` on one wire alone. -/
def GateNode.isPlain (n : GateNode) (kind : StandardGate) (wire : Nat) : Bool :=
  n.gate.is kind && n.isUnguarded && n.targets == [wire]

end Peephole
