import Peephole.Rule.Basic

/-!
# Neighbours that cancel

A self-inverse gate followed at once by the same gate, on the same targets and under the same
guards, does nothing. "At once" is meant on every wire the gate touches.
-/

set_option autoImplicit false
set_option relaxedAutoImplicit false

namespace Peephole.Rule

/-- Whether `second` follows `first` on every wire that `first` touches. -/
def followsOnAll (g : Circuit) (first second : Nat) : Except CircuitFault Bool :=
  match g.gate? first with
  | none => .error .invalidNode
  | some payload => payload.wires.allM fun w ↦ (g.nextOn first w).map (· = second)

/-- Whether a window holds two neighbours that cancel. -/
def cancels (gate : StandardGate) (g : Circuit) (path : Path) : Except CircuitFault Bool :=
  match g.gateWindow path Family.nullGate.depth with
  | some [(first, a), (second, b)] =>
    if a.gate.is gate && a.sameEffect b then followsOnAll g first second else .ok false
  | _ => .ok false

/-- Removes the two gates of a window. -/
def performCancel (gate : StandardGate) (path : Path) : Reduction Unit :=
  match path.window with
  | [first, second] => do
    discard (Reduction.edit (Circuit.remove first))
    discard (Reduction.edit (Circuit.remove second))
  | _ => throw (.window (.cancel gate) .notTwoNodes)

end Peephole.Rule
