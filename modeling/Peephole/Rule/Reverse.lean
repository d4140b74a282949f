import Peephole.Rule.Basic

/-!
# Controlled nots between Hadamards

A controlled not with Hadamards before and after it on both of its wires is the controlled not in
the other direction. It may be written as a CX gate or as an X with one guard.
-/

set_option autoImplicit false
set_option relaxedAutoImplicit false

namespace Peephole.Rule

/-- The control of a gate that is a controlled not with the given target. -/
def controlOf (payload : GateNode) (target : Nat) : Option Nat :=
  match payload.gate with
  | .standard .cx =>
    match payload.targets with
    | [control, t] =>
      if payload.isUnguarded && t = target && control ≠ target then some control else none
    | _ => none
  | .standard .x =>
    match payload.guards with
    | [c] =>
      if !c.negated && c.wire ≠ target && payload.targets == [target] then some c.wire else none
    | _ => none
  | _ => none

/-- The neighbours of a node on its control wire, if both are plain Hadamards. -/
def controlHadamards (g : Circuit) (n control : Nat) : Except CircuitFault (Option (Nat × Nat)) := do
  let before ← g.prevOn n control
  let after ← g.nextOn n control
  let isHadamard (m : Nat) : Bool := (g.gate? m).any (·.isPlain .h control)
  return if isHadamard before && isHadamard after then some (before, after) else none

/-- Whether a window holds a controlled not between Hadamards on both of its wires. -/
def reverses (g : Circuit) (path : Path) : Except CircuitFault Bool :=
  match g.gateWindow path Family.controlReversal.depth with
  | some [(_, opening), (n, payload), (_, closing)] =>
    if opening.isPlain .h path.wire && closing.isPlain .h path.wire then
      match controlOf payload path.wire with
      | none => .ok false
      | some control => (controlHadamards g n control).map Option.isSome
    else .ok false
  | _ => .ok false

/-- The targets and guards of a controlled not after it has changed direction. -/
def reversed (payload : GateNode) (target control : Nat) : List Nat × List WireGuard :=
  if payload.isUnguarded then ([target, control], []) else ([control], [⟨target, false⟩])

/-- Removes the four Hadamards and turns the controlled not around. -/
def performReverse (path : Path) : Reduction Unit :=
  match path.window with
  | [opening, n, closing] => do
    match (← get).gate? n with
    | none => throw (.circuit .invalidNode)
    | some payload =>
      match controlOf payload path.wire with
      | none => throw (.window .reverse .middleNotControlledNot)
      | some control =>
        match ← Reduction.ask fun g ↦ controlHadamards g n control with
        | none => throw (.window .reverse .hadamardsLost)
        | some (before, after) =>
          [opening, closing, before, after].forM fun m ↦
            discard (Reduction.edit (Circuit.remove m))
          let (targets, guards) := reversed payload path.wire control
          Reduction.edit (Circuit.retarget n targets guards)
  | _ => throw (.window .reverse .notThreeNodes)

end Peephole.Rule
