import Peephole.Qubit

/-!
# What can go wrong in a circuit

`CircuitFault` lists the causes for which an operation on a circuit is refused, and
`CircuitFault.message` gives each of them its text. The causes that concern the shape of the graph
itself are collected in `ShapeFault`.
-/

set_option autoImplicit false
set_option relaxedAutoImplicit false

namespace Peephole

/-- The side of a node an edge is on. -/
inductive Side where
  | incoming
  | outgoing
deriving DecidableEq, Repr

def Side.render : Side → String
  | incoming => "incoming"
  | outgoing => "outgoing"

/-- The text of a wire number. -/
def renderWire (wire : Nat) : String :=
  "w" ++ Nat.repr wire

/-- Where a walk along a wire began. -/
inductive WalkStart where
  | input
  | node (number : Nat)
deriving DecidableEq, Repr

def WalkStart.render : WalkStart → String
  | input => "input"
  | node n => "node " ++ Nat.repr n

/-- A fault in the shape of the graph. -/
inductive ShapeFault where
  /-- A gate would be connected on a wire it does not touch. -/
  | offWire (node wire : Nat)
  | removesSentinel
  | notAGate (node : Nat)
  /-- New targets and guards would touch other wires than the old ones. -/
  | changesWires (node : Nat)
  | noEdge (node : Nat) (side : Side) (wire : Nat)
  | manyEdges (node : Nat) (side : Side) (wire : Nat)
  | noSuchEdge (edge : Nat)
  | cycle
  | inputEntered (wire : Nat)
  | sentinelInside (wire : Nat)
  | strayOnWire (node wire : Nat)
  | onNoWire (node : Nat)
  | edgeCount (total onWires : Nat)
deriving DecidableEq, Repr

def ShapeFault.message : ShapeFault → String
  | offWire n w => "gate node " ++ Nat.repr n ++ " does not touch wire " ++ renderWire w
  | removesSentinel => "Cannot remove a sentinel node"
  | notAGate n => "node " ++ Nat.repr n ++ " is a sentinel, not a gate"
  | changesWires n =>
    "retargeting node " ++ Nat.repr n ++ " would change the wires it touches"
  | noEdge n side w =>
    "node " ++ Nat.repr n ++ " has no " ++ side.render ++ " edge on wire " ++ renderWire w
  | manyEdges n side w =>
    "node " ++ Nat.repr n ++ " has more than one " ++ side.render ++ " edge on wire " ++
      renderWire w
  | noSuchEdge e => "edge " ++ Nat.repr e ++ " is not in the graph"
  | cycle => "graph contains a cycle"
  | inputEntered w => "input of wire " ++ renderWire w ++ " has inbound edges"
  | sentinelInside w => "sentinel in the middle of wire " ++ renderWire w
  | strayOnWire n w =>
    "node " ++ Nat.repr n ++ " is on wire " ++ renderWire w ++ " without touching it"
  | onNoWire n => "node " ++ Nat.repr n ++ " is not on any wire"
  | edgeCount total seen =>
    Nat.repr total ++ " edges in graph but " ++ Nat.repr seen ++ " on wires"

/-- Why an operation on a circuit is refused. -/
inductive CircuitFault where
  | undeclaredQubit (qubit : Qubit) (gate : String)
  | duplicateDeclaration (name : String)
  | inboundToInput (wire : Nat)
  | outboundFromOutput (wire : Nat)
  /-- A walk along a wire does not end where it should. -/
  | brokenWire (wire : Nat) (start : WalkStart)
  | missingGuard (wire : Nat)
  | invalidNode
  | unknownWire (wire : Nat)
  | invalidShape (fault : ShapeFault)
deriving DecidableEq

def CircuitFault.message : CircuitFault → String
  | undeclaredQubit q gate =>
    "Qubit '" ++ q.render ++ "' is not declared (gate: " ++ gate ++ ")"
  | duplicateDeclaration name => "Duplicate declaration of '" ++ name ++ "'"
  | inboundToInput w =>
    "Cannot add an inbound edge to the input node of wire " ++ renderWire w
  | outboundFromOutput w =>
    "Cannot add an outbound edge to the output node of wire " ++ renderWire w
  | brokenWire w start =>
    "Wire " ++ renderWire w ++ " does not reach the end node while walking from " ++ start.render
  | missingGuard w => "Node has no guard on wire " ++ renderWire w
  | invalidNode => "Invalid node index"
  | unknownWire w => "Unknown wire " ++ renderWire w
  | invalidShape fault => "Invalid graph structure: " ++ fault.message

end Peephole
