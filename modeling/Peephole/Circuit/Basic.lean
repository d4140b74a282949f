import Peephole.Circuit.Fault
import Peephole.Circuit.Slots
import Peephole.Program.Basic

/-!
# Circuits as graphs

A `Circuit` has one wire for each qubit. A wire runs from its input node through the gates that
have the qubit as a target or as a guard, in the order of the program, to its output node; each step
is an edge labelled with the wire. Nodes and edges have lasting numbers (`Slots`), wires are
numbered in the order of their declaration, and every gate carries its place in the program
(`GateNode.order`).

This module holds the data and the questions one can ask of it. A question that has no answer gives
the reason as a `CircuitFault`.
-/

set_option autoImplicit false
set_option relaxedAutoImplicit false

namespace Peephole

/-- The members of a list in the order of their first occurrence. -/
def distinct : List Nat → List Nat
  | [] => []
  | w :: rest => w :: (distinct rest).filter (· ≠ w)

/-- A guard of a gate in a circuit, on a wire. -/
structure WireGuard where
  wire : Nat
  negated : Bool
deriving DecidableEq, Inhabited

/-- A gate in a circuit, with its place in the program. -/
structure GateNode where
  gate : Gate
  targets : List Nat
  guards : List WireGuard
  order : Nat
deriving BEq, Inhabited

namespace GateNode

def guardWires (n : GateNode) : List Nat :=
  n.guards.map WireGuard.wire

def isTarget (n : GateNode) (wire : Nat) : Bool :=
  n.targets.contains wire

def isGuard (n : GateNode) (wire : Nat) : Bool :=
  n.guards.any (·.wire = wire)

/-- Whether a wire is a target or a guard of the gate. -/
def touches (n : GateNode) (wire : Nat) : Bool :=
  n.isTarget wire || n.isGuard wire

/-- The wires a gate touches, each once, the targets first. -/
def wires (n : GateNode) : List Nat :=
  distinct (n.targets ++ n.guardWires)

def guardsOn (n : GateNode) (wire : Nat) : List WireGuard :=
  n.guards.filter (·.wire = wire)

def isUnguarded (n : GateNode) : Bool :=
  n.guards.isEmpty

/-- Whether every guard of `a` is a guard of `b`. -/
def guardsWithin (a b : GateNode) : Bool :=
  a.guards.all (b.guards.contains ·)

/-- Whether two gates have the same gate, the same targets and the same set of guards. -/
def sameEffect (a b : GateNode) : Bool :=
  a.gate == b.gate && a.targets == b.targets && a.guardsWithin b && b.guardsWithin a

end GateNode

/-- A node of a circuit: an end of a wire, or a gate. -/
inductive Node where
  | input (wire : Nat)
  | output (wire : Nat)
  | gate (gate : GateNode)
deriving BEq, Inhabited

namespace Node

def isInput : Node → Bool
  | input _ => true
  | _ => false

def isOutput : Node → Bool
  | output _ => true
  | _ => false

def gate? : Node → Option GateNode
  | gate g => some g
  | _ => none

/-- The wires a node is on. -/
def wires : Node → List Nat
  | input w => [w]
  | output w => [w]
  | gate g => g.wires

end Node

/-- One step along a wire. -/
structure Edge where
  source : Nat
  target : Nat
  wire : Nat
deriving DecidableEq, Inhabited, Repr

/-- Whether an edge is on a side of a node. -/
def Edge.isAt (e : Edge) (n : Nat) : Side → Bool
  | .incoming => e.target = n
  | .outgoing => e.source = n

/-- A qubit with the nodes at the two ends of its wire. -/
structure Wire where
  qubit : Qubit
  input : Nat
  output : Nat
deriving DecidableEq, Inhabited

/-- A lookup of wires by qubit agrees with a list of wires: an entry gives a wire of its qubit, and
the qubit of every wire has an entry. -/
structure Agrees (lookup : List (Qubit × Nat)) (wires : List Wire) : Prop where
  qubit : ∀ q w, (q, w) ∈ lookup → (wires[w]?).map Wire.qubit = some q
  entry : ∀ wire ∈ wires, ∃ w, (wire.qubit, w) ∈ lookup

theorem Agrees.nil : Agrees [] [] where
  qubit _ _ h := absurd h List.not_mem_nil
  entry _ h := absurd h List.not_mem_nil

/-- A new wire is entered under its qubit. -/
theorem Agrees.push {lookup : List (Qubit × Nat)} {wires : List Wire} (h : Agrees lookup wires)
    (wire : Wire) : Agrees ((wire.qubit, wires.length) :: lookup) (wires ++ [wire]) where
  qubit q w hw := by
    rcases List.mem_cons.mp hw with heq | hw
    · cases heq
      rw [List.getElem?_concat_length]
      rfl
    · obtain ⟨x, hx, hq⟩ := Option.map_eq_some_iff.mp (h.qubit q w hw)
      rw [List.getElem?_append_left (List.getElem?_eq_some_iff.mp hx).1, hx, Option.map_some, hq]
  entry x hx := by
    rcases List.mem_append.mp hx with hx | hx
    · obtain ⟨w, hw⟩ := h.entry x hx
      exact ⟨w, List.mem_cons_of_mem _ hw⟩
    · cases List.mem_singleton.mp hx
      exact ⟨wires.length, List.mem_cons_self⟩

/-- A circuit. `lookup` gives the wires of the qubits and always agrees with them. `placed` counts
the gates applied so far; the next gate gets the place after it. -/
structure Circuit where
  nodes : Slots Node
  edges : Slots Edge
  wires : List Wire
  lookup : List (Qubit × Nat)
  declarations : List Declaration
  placed : Nat
  agrees : Agrees lookup wires

namespace Circuit

/-- The circuit without qubits. -/
def empty : Circuit :=
  ⟨Slots.empty, Slots.empty, [], [], [], 0, .nil⟩

instance : Inhabited Circuit := ⟨empty⟩

variable (g : Circuit)

def node? (n : Nat) : Option Node :=
  g.nodes.get? n

def gate? (n : Nat) : Option GateNode :=
  (g.node? n).bind Node.gate?

def contains (n : Nat) : Bool :=
  (g.node? n).isSome

/-- The wire of a qubit. -/
def wireOf? (q : Qubit) : Option Nat :=
  g.lookup.lookup q

/-- The number of gates. -/
def gateCount : Nat :=
  g.nodes.size - 2 * g.wires.length

def edgeCount : Nat :=
  g.edges.size

/-- The data of a wire. -/
def wire (w : Nat) : Except CircuitFault Wire :=
  match g.wires[w]? with
  | some info => .ok info
  | none => .error (.unknownWire w)

def qubitOf (w : Nat) : Except CircuitFault Qubit :=
  (g.wire w).map Wire.qubit

def inputOf (w : Nat) : Except CircuitFault Nat :=
  (g.wire w).map Wire.input

def outputOf (w : Nat) : Except CircuitFault Nat :=
  (g.wire w).map Wire.output

/-- The wires a node is on. -/
def wiresOf (n : Nat) : Except CircuitFault (List Nat) :=
  match g.node? n with
  | some node => .ok node.wires
  | none => .error .invalidNode

/-- The edge with a number. -/
def edge (e : Nat) : Except CircuitFault Edge :=
  match g.edges.get? e with
  | some edge => .ok edge
  | none => .error (.invalidShape (.noSuchEdge e))

/-- The one edge of a wire on a side of a node, with its number. -/
def edgeAt (side : Side) (n w : Nat) : Except CircuitFault (Nat × Edge) :=
  if g.contains n then
    match g.edges.select fun e ↦ e.isAt n side && e.wire = w with
    | [found] => .ok found
    | [] => .error (.invalidShape (.noEdge n side w))
    | _ => .error (.invalidShape (.manyEdges n side w))
  else .error .invalidNode

/-- The edge by which a wire enters a node. -/
def inEdge (n w : Nat) : Except CircuitFault (Nat × Edge) :=
  g.edgeAt .incoming n w

/-- The edge by which a wire leaves a node. -/
def outEdge (n w : Nat) : Except CircuitFault (Nat × Edge) :=
  g.edgeAt .outgoing n w

/-- The node after `n` on a wire. -/
def nextOn (n w : Nat) : Except CircuitFault Nat :=
  (g.outEdge n w).map (·.2.target)

/-- The node before `n` on a wire. -/
def prevOn (n w : Nat) : Except CircuitFault Nat :=
  (g.inEdge n w).map (·.2.source)

variable {g}

/-- The wire that is found for a qubit is its wire. -/
theorem qubit_of_wireOf? {q : Qubit} {w : Nat} (h : g.wireOf? q = some w) :
    (g.wires[w]?).map Wire.qubit = some q := by
  obtain ⟨before, after, hlookup, -⟩ := List.lookup_eq_some_iff.mp h
  refine g.agrees.qubit q w ?_
  rw [hlookup]
  exact List.mem_append_right _ List.mem_cons_self

/-- A wire is found for every qubit that has one. -/
theorem isSome_wireOf? {q : Qubit} :
    (g.wireOf? q).isSome = true ↔ ∃ wire ∈ g.wires, wire.qubit = q := by
  constructor
  · intro h
    obtain ⟨w, hw⟩ := Option.isSome_iff_exists.mp h
    obtain ⟨wire, hwire, rfl⟩ := Option.map_eq_some_iff.mp (qubit_of_wireOf? hw)
    exact ⟨wire, List.mem_of_getElem? hwire, rfl⟩
  · rintro ⟨wire, hwire, rfl⟩
    obtain ⟨w, hw⟩ := g.agrees.entry wire hwire
    rw [wireOf?, List.lookup_isSome_iff]
    exact ⟨_, hw, beq_self_eq_true _⟩

end Circuit

end Peephole
