import Peephole.Rule.Basic

/-!
# Guards that are decided

A wire starts in the state zero, and unguarded X, Y and Z gates on it alone keep it in a basis state.
Where the state is known, a guard on that wire is decided: if it holds it can be dropped, and if it
fails the gate never acts.
-/

set_option autoImplicit false
set_option relaxedAutoImplicit false

namespace Peephole.Rule

/-- The basis state of a wire after some nodes, if they keep it in one. -/
def stateAfter (g : Circuit) (wire : Nat) :
    (state : Bool) → (nodes : List Nat) → Except CircuitFault (Option Bool)
  | state, [] => .ok (some state)
  | state, n :: rest =>
    match g.gate? n with
    | none => .error .invalidNode
    | some payload =>
      if payload.isUnguarded && payload.targets == [wire] then
        match payload.gate with
        | .standard .x => stateAfter g wire (!state) rest
        | .standard .y => stateAfter g wire (!state) rest
        | .standard .z => stateAfter g wire state rest
        | _ => .ok none
      else .ok none

/-- The basis state of a wire just before a node, if it is known. -/
def basisState (g : Circuit) (wire n : Nat) : Except CircuitFault (Option Bool) := do
  let input ← g.inputOf wire
  let path ← Path.between g wire input n
  stateAfter g wire false path.inner

/-- Whether the guards of a gate on a wire hold in a basis state. -/
def triggers (payload : GateNode) (wire : Nat) (state : Bool) : Bool :=
  (payload.guardsOn wire).all fun c ↦ state != c.negated

/-- Whether a window ends at a gate with a guard, and no target, on a wire of known state. -/
def peeps (g : Circuit) (path : Path) : Except CircuitFault Bool :=
  match g.gateWindow path Family.peepingControl.depth with
  | some [(n, payload)] =>
    if payload.isGuard path.wire && !payload.isTarget path.wire then
      (basisState g path.wire n).map Option.isSome
    else .ok false
  | _ => .ok false

/-- Drops the decided guards of the gate at the end of a window, or the gate if it never acts. -/
def performPeep (path : Path) : Reduction Unit := do
  match ← Reduction.ask fun g ↦ basisState g path.wire path.last with
  | none => throw (.window .peep .unknownState)
  | some state =>
    match (← get).gate? path.last with
    | none => throw (.window .peep .notAtGate)
    | some payload =>
      if triggers payload path.wire state then
        Reduction.edit (Circuit.removeGuards path.last path.wire)
      else discard (Reduction.edit (Circuit.remove path.last))

end Peephole.Rule
