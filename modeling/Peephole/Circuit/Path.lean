import Peephole.Circuit.Basic

/-!
# Paths along a wire

A `Path` starts at a node and follows the edges of one wire. `Path.between` walks from one node to
another, `Path.bounded` stops after a number of edges, `Path.forward` has no end node, and
`Path.full` runs from the input to the output of the wire. `Path.suffixes` are the rests of a path
from each of its nodes, and `Path.windows` cuts stretches of a limited length from it, by indices
that have to fit in 64 bits.

A walk visits every node of a well-formed wire once, so it is given up when it has taken more steps
than there are gates and two ends.
-/

set_option autoImplicit false
set_option relaxedAutoImplicit false

namespace Peephole

/-- A walk along one wire. -/
structure Path where
  wire : Nat
  start : Nat
  edges : List Edge
deriving DecidableEq, Inhabited, Repr

namespace Path

/-- The nodes after the first one. -/
def window (p : Path) : List Nat :=
  p.edges.map Edge.target

/-- The nodes in order. -/
def nodes (p : Path) : List Nat :=
  p.start :: p.window

/-- The last node. -/
def last (p : Path) : Nat :=
  p.window.getLastD p.start

/-- The nodes strictly between the first and the last. -/
def inner (p : Path) : List Nat :=
  p.window.dropLast

def length (p : Path) : Nat :=
  p.edges.length

/-- The edges of a walk from `current`, given the output node of the wire. It ends at the output, at
`stop`, or when `left` edges have been taken. -/
def follow (g : Circuit) (wire output : Nat) (start : Nat) (stop : Option Nat) :
    (budget : Nat) → (left : Option Nat) → (current : Nat) → Except CircuitFault (List Edge)
  | budget, left, current =>
    if left = some 0 ∨ stop = some current ∨ current = output then .ok []
    else
      match budget with
      | 0 => .error (.brokenWire wire (.node start))
      | budget + 1 => do
        let (_, e) ← g.outEdge current wire
        let rest ← follow g wire output start stop budget (left.map (· - 1)) e.target
        return e :: rest

/-- A walk from `start` of at most `limit` edges. If it runs into the output of the wire before it
reaches `stop`, the wire is broken. -/
def walk (g : Circuit) (wire start : Nat) (stop limit : Option Nat) : Except CircuitFault Path := do
  let output ← g.outputOf wire
  let edges ← follow g wire output start stop (g.gateCount + 2) limit start
  let path : Path := ⟨wire, start, edges⟩
  let missed := match stop with
    | none => false
    | some stop =>
      path.last = output && stop ≠ output && limit.all (decide <| edges.length < ·)
  if missed then throw (.brokenWire wire (.node start))
  return path

/-- The path from `start` to `stop`. -/
def between (g : Circuit) (wire start stop : Nat) : Except CircuitFault Path := do
  let path ← walk g wire start (some stop) none
  if path.last = stop then return path
  throw (.brokenWire wire (.node start))

/-- The first `limit` edges of the way from `start` to `stop`. -/
def bounded (g : Circuit) (wire start stop limit : Nat) : Except CircuitFault Path :=
  walk g wire start (some stop) (some limit)

/-- The first `limit` edges of the way from `start`. -/
def forward (g : Circuit) (wire start limit : Nat) : Except CircuitFault Path :=
  walk g wire start none (some limit)

/-- The whole wire. -/
def full (g : Circuit) (wire : Nat) : Except CircuitFault Path := do
  let input ← g.inputOf wire
  let output ← g.outputOf wire
  between g wire input output

/-- The first edges of a path. -/
def take (p : Path) (limit : Nat) : Path :=
  { p with edges := p.edges.take limit }

/-- The paths that start at `start` or later and keep to the edges given, the longest first. -/
def suffixesFrom (wire : Nat) : (start : Nat) → (edges : List Edge) → List Path
  | start, [] => [⟨wire, start, []⟩]
  | start, e :: rest => ⟨wire, start, e :: rest⟩ :: suffixesFrom wire e.target rest

/-- The rest of a path from each of its nodes in order. -/
def suffixes (p : Path) : List Path :=
  suffixesFrom p.wire p.start p.edges

/-- The part of a path from the node at one index to the node at another. -/
def slice (p : Path) (first last : Nat) : Path :=
  ⟨p.wire, p.nodes.getD first p.start, (p.edges.take last).drop first⟩

/-- The stretches of a path that have at most `limit` edges, one from each of its nodes. There are
none if the index at which a stretch would end does not fit in 64 bits, even if the path ends long
before. -/
def windows (p : Path) (limit : Nat) : Option (List Path) :=
  (List.range p.nodes.length).mapM fun i ↦
    if i + limit < UInt64.size then some (p.slice i (min (i + limit) p.length)) else none

end Path

end Peephole
