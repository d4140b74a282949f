import Peephole.Circuit.Basic

/-!
# Well-formed circuits

`Circuit.gatesOn` follows a wire from its input to its output. `Circuit.verify` checks that every
wire is such a single way through gates that touch it, that every node is on some wire, that every
gate has one edge on each side for each of its wires, and that there are no other edges.
-/

set_option autoImplicit false
set_option relaxedAutoImplicit false

namespace Peephole.Circuit

/-- The nodes after `current` on a wire up to the output, found in at most `steps` steps. -/
def follow (g : Circuit) (w output : Nat) : (steps current : Nat) → Except CircuitFault (List Nat)
  | 0, _ => .error (.brokenWire w .input)
  | steps + 1, current => do
    let next ← g.nextOn current w
    if next = output then return []
    return next :: (← follow g w output steps next)

/-- The nodes of a wire between its ends. -/
def gatesOn (g : Circuit) (w : Nat) : Except CircuitFault (List Nat) := do
  let output ← g.outputOf w
  let input ← g.inputOf w
  follow g w output (g.nodes.size + 1) input

/-- Checks that a node between the ends of a wire is a gate that touches the wire. -/
def verifyOnWire (g : Circuit) (w n : Nat) : Except CircuitFault Unit :=
  match g.gate? n with
  | none => .error (.invalidShape (.sentinelInside w))
  | some payload =>
    if payload.touches w then .ok () else .error (.invalidShape (.strayOnWire n w))

/-- Checks one wire and gives all its nodes. -/
def verifyWire (g : Circuit) (w : Nat) : Except CircuitFault (List Nat) := do
  let info ← g.wire w
  if g.edges.values.any (·.target = info.input) then
    throw (.invalidShape (.inputEntered w))
  let gates ← g.gatesOn w
  gates.forM (g.verifyOnWire w)
  return info.input :: info.output :: gates

/-- Checks that a node is among those found on wires, and that a gate has one edge on each side for
each of its wires. -/
def verifyNode (g : Circuit) (onWires : List Nat) (n : Nat) : Except CircuitFault Unit := do
  if !onWires.contains n then
    throw (.invalidShape (.onNoWire n))
  match g.gate? n with
  | none => return ()
  | some payload => payload.wires.forM fun w ↦ do
    discard (g.inEdge n w)
    discard (g.outEdge n w)

/-- Checks that a circuit is well formed. -/
def verify (g : Circuit) : Except CircuitFault Unit := do
  let perWire ← (List.range g.wires.length).mapM g.verifyWire
  let onWires := perWire.flatten
  g.nodes.entries.forM fun entry ↦ g.verifyNode onWires entry.1
  let seen := (perWire.map fun nodes ↦ nodes.length - 1).foldl (· + ·) 0
  if seen ≠ g.edgeCount then
    throw (.invalidShape (.edgeCount g.edgeCount seen))

end Peephole.Circuit
