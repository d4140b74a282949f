import Peephole.Circuit.Basic

/-!
# Changing a circuit

An `Edit` changes a circuit step by step and may be refused. A refusal keeps the circuit as it is at
that moment, so the changes of the steps before it stay.

`declare` adds the wires of a declaration and `apply` puts a gate at the end of every wire it
touches. `remove` takes a gate out of its wires, `removeGuards` drops its guards on one wire,
`setGate` and `retarget` change what it does without moving it. `connect` adds a single edge; it is
the only operation that can leave a wire with more than one way to go.
-/

set_option autoImplicit false
set_option relaxedAutoImplicit false

namespace Peephole

/-- A change of a circuit that can be refused. -/
abbrev Edit := EStateM CircuitFault Circuit

/-- Asks the circuit a question. -/
def Edit.ask {α : Type} (question : Circuit → Except CircuitFault α) : Edit α := fun g ↦
  match question g with
  | .ok a => .ok a g
  | .error e => .error e g

namespace Circuit

/-- Adds a node. -/
def addNode (node : Node) (g : Circuit) : Circuit :=
  { g with nodes := g.nodes.insert node }

/-- Adds an edge. -/
def addEdge (e : Edge) (g : Circuit) : Circuit :=
  { g with edges := g.edges.insert e }

/-- Removes the edge with a number. -/
def eraseEdge (e : Nat) (g : Circuit) : Circuit :=
  { g with edges := g.edges.erase e }

/-- Removes a node with all its edges. -/
def eraseNode (n : Nat) (g : Circuit) : Circuit :=
  let touching := g.edges.select fun e ↦ e.source = n || e.target = n
  { g with
    edges := touching.foldl (fun edges entry ↦ edges.erase entry.1) g.edges
    nodes := g.nodes.erase n }

/-- Changes the gate with a number. -/
def updateGate (n : Nat) (f : GateNode → GateNode) (g : Circuit) : Circuit :=
  { g with nodes := g.nodes.update n fun
      | .gate payload => .gate (f payload)
      | other => other }

/-- Adds the wire of a qubit: its input node, its output node and the edge between them. The wire is
entered in the lookup. -/
def addWire (q : Qubit) (g : Circuit) : Circuit :=
  let w := g.wires.length
  let input := g.nodes.next
  let g := g.addNode (.input w)
  let output := g.nodes.next
  let g := g.addNode (.output w)
  let g := g.addEdge ⟨input, output, w⟩
  let wire : Wire := ⟨q, input, output⟩
  { g with
    wires := g.wires ++ [wire]
    lookup := (q, w) :: g.lookup
    agrees := g.agrees.push wire }

/-- Declares qubits and gives their wires. A name can be declared once. -/
def declare (d : Declaration) : Edit (List Nat) := do
  let g ← get
  if g.declarations.any (·.name = d.name) then
    throw (.duplicateDeclaration d.name)
  set (d.qubits.foldl (fun g q ↦ g.addWire q) { g with declarations := g.declarations ++ [d] })
  return (List.range d.qubits.length).map (g.wires.length + ·)

/-- Refuses an edge that would leave `n` on wire `w`. -/
def checkSource (g : Circuit) (n w : Nat) : Except CircuitFault Unit :=
  match g.node? n with
  | none => .error .invalidNode
  | some (.output own) => .error (.outboundFromOutput own)
  | some (.input _) => .ok ()
  | some (.gate payload) =>
    if payload.touches w then .ok () else .error (.invalidShape (.offWire n w))

/-- Refuses an edge that would enter `n` on wire `w`. -/
def checkTarget (g : Circuit) (n w : Nat) : Except CircuitFault Unit :=
  match g.node? n with
  | none => .error .invalidNode
  | some (.input own) => .error (.inboundToInput own)
  | some (.output _) => .ok ()
  | some (.gate payload) =>
    if payload.touches w then .ok () else .error (.invalidShape (.offWire n w))

/-- Adds an edge and gives its number. Nothing leaves an output node or enters an input node, and a
gate is connected only on wires it touches. -/
def connect (source target w : Nat) : Edit Nat := do
  Edit.ask (·.checkSource source w)
  Edit.ask (·.checkTarget target w)
  let g ← get
  set (g.addEdge ⟨source, target, w⟩)
  return g.edges.next

/-- Puts a node between the last node of a wire and its output node. -/
def append (w n : Nat) : Edit Unit := do
  let output ← Edit.ask (·.outputOf w)
  let (number, last) ← Edit.ask (·.inEdge output w)
  modify (eraseEdge number)
  discard (connect last.source n w)
  discard (connect n output w)

/-- The wire of a qubit that the named gate is applied to. -/
def resolve (g : Circuit) (gate : String) (q : Qubit) : Except CircuitFault Nat :=
  match g.wireOf? q with
  | some w => .ok w
  | none => .error (.undeclaredQubit q gate)

/-- The targets and guards of an application as wires. -/
def resolveAll (g : Circuit) (a : Application) : Except CircuitFault (List Nat × List WireGuard) :=
  do
    let targets ← a.targets.mapM (g.resolve a.gate.name)
    let guards ← a.guards.mapM fun c ↦
      (g.resolve a.gate.name c.qubit).map fun w ↦ WireGuard.mk w c.negated
    return (targets, guards)

/-- Applies a gate after all gates so far and gives its node. -/
def apply (a : Application) : Edit Nat := do
  let (targets, guards) ← Edit.ask (·.resolveAll a)
  let g ← get
  let payload : GateNode := ⟨a.gate, targets, guards, g.placed + 1⟩
  set ({ g with placed := g.placed + 1 }.addNode (.gate payload))
  let n := g.nodes.next
  payload.wires.forM fun w ↦ append w n
  return n

/-- Takes a node out of a wire: its two neighbours become neighbours of each other. -/
def spliceOut (n w : Nat) : Edit Unit := do
  let (incoming, before) ← Edit.ask (·.inEdge n w)
  let (outgoing, after) ← Edit.ask (·.outEdge n w)
  modify fun g ↦
    ((g.eraseEdge incoming).eraseEdge outgoing).addEdge ⟨before.source, after.target, w⟩

/-- Removes a gate and gives what it was. -/
def remove (n : Nat) : Edit GateNode := do
  match (← get).gate? n with
  | none => throw (.invalidShape .removesSentinel)
  | some payload =>
    payload.wires.forM fun w ↦ spliceOut n w
    modify (eraseNode n)
    return payload

/-- The gate with a number. -/
def gateAt (g : Circuit) (n : Nat) : Except CircuitFault GateNode :=
  match g.node? n with
  | some (.gate payload) => .ok payload
  | some _ => .error (.invalidShape (.notAGate n))
  | none => .error .invalidNode

/-- Drops the guards of a gate on a wire, and takes the gate out of the wire unless the wire is also
a target. -/
def removeGuards (n w : Nat) : Edit Unit := do
  let payload ← Edit.ask (·.gateAt n)
  if payload.isGuard w then
    modify (updateGate n fun p ↦ { p with guards := p.guards.filter (·.wire ≠ w) })
    if payload.isTarget w then return ()
    spliceOut n w
  else throw (.missingGuard w)

/-- Replaces the gate of a node. -/
def setGate (n : Nat) (gate : Gate) : Edit Unit := do
  discard (Edit.ask (·.gateAt n))
  modify (updateGate n fun p ↦ { p with gate })

/-- Replaces the targets and guards of a gate by others on the same wires. -/
def retarget (n : Nat) (targets : List Nat) (guards : List WireGuard) : Edit Unit := do
  let payload ← Edit.ask (·.gateAt n)
  let before := payload.wires
  let after := targets ++ guards.map WireGuard.wire
  if before.all (after.contains ·) && after.all (before.contains ·) then
    modify (updateGate n fun p ↦ { p with targets, guards })
  else throw (.invalidShape (.changesWires n))

end Circuit

end Peephole
