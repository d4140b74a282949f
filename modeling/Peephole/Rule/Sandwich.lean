import Peephole.Rule.Basic

/-!
# Gates between Hadamards

An X between two Hadamards is a Z, and a Z between them is an X. The Hadamards may be guarded if the
gate between them has at least the same guards and all three follow each other on the wires of those
guards.
-/

set_option autoImplicit false
set_option relaxedAutoImplicit false

namespace Peephole.Rule

/-- Whether a window holds `middle` between two equal Hadamards. -/
def sandwiches (middle : StandardGate) (g : Circuit) (path : Path) : Except CircuitFault Bool :=
  match g.gateWindow path Family.hSandwich.depth with
  | some [(first, opening), (second, inner), (third, closing)] =>
    if opening.gate.is .h && opening.targets == [path.wire] && opening.sameEffect closing &&
        inner.gate.is middle && inner.targets == [path.wire] && opening.guardsWithin inner then
      opening.guards.allM fun c ↦ do
        if (← g.nextOn first c.wire) = second then
          return (← g.nextOn second c.wire) = third
        return false
    else .ok false
  | _ => .ok false

/-- Removes the Hadamards of a window and replaces the gate between them. -/
def performSandwich (middle replacement : StandardGate) (path : Path) : Reduction Unit :=
  match path.window with
  | [first, second, third] => do
    discard (Reduction.edit (Circuit.remove first))
    discard (Reduction.edit (Circuit.remove third))
    Reduction.edit (Circuit.setGate second (.standard replacement))
  | _ => throw (.window (.sandwich middle replacement) .notThreeNodes)

end Peephole.Rule
