import Peephole.Circuit.Basic
import Peephole.Sorting

/-!
# The order of the gates

The edges of a circuit say which gates must come before which. `Circuit.ordered` counts the edges
into every node and takes, again and again, the first node with none left: inputs come first, gates
by their place in the program, outputs last. The edges that leave a node are counted down when it is
taken (`Countdown`). The sort fails exactly when some nodes are never free to be taken, that is,
when they lie on or behind a cycle. `Circuit.toProgram` turns the gates in that order into a
program.
-/

set_option autoImplicit false
set_option relaxedAutoImplicit false

namespace Peephole

/-- Inputs before gates before outputs, and gates by their place. -/
def Node.rank : Node → Nat × Nat
  | input _ => (0, 0)
  | gate payload => (1, payload.order)
  | output _ => (2, 0)

/-- A sort under way: how many edges are still to be followed into each node, and the nodes that can
be taken next, in their order. -/
structure Countdown where
  degrees : List (Nat × Nat)
  ready : List Nat

namespace Countdown

variable (le : Nat → Nat → Bool)

/-- Counts down one of the edges into `n` and gives how many are left. There is no answer for a node
without a count, nor for one whose count is zero already. -/
def lower? (n : Nat) : (degrees : List (Nat × Nat)) → Option (Nat × List (Nat × Nat))
  | [] => none
  | (m, degree) :: rest =>
    if m = n then
      if degree = 0 then none else some (degree - 1, (m, degree - 1) :: rest)
    else (lower? n rest).map fun (left, rest) ↦ (left, (m, degree) :: rest)

/-- Follows an edge into `n`, which can be taken when it was the last one. -/
def follow (s : Countdown) (n : Nat) : Option Countdown :=
  (lower? n s.degrees).map fun (left, degrees) ↦
    ⟨degrees, if left = 0 then insertBy le n s.ready else s.ready⟩

/-- The sum of the counts. -/
def total : (degrees : List (Nat × Nat)) → Nat
  | [] => 0
  | (_, degree) :: rest => degree + total rest

/-- What is left to do: the nodes that can be taken and the edges that are to be followed. -/
def work (s : Countdown) : Nat :=
  s.ready.length + total s.degrees

theorem total_of_lower? {n left : Nat} {degrees degrees' : List (Nat × Nat)}
    (h : lower? n degrees = some (left, degrees')) : total degrees = total degrees' + 1 := by
  induction degrees generalizing degrees' with
  | nil => cases h
  | cons row rest ih =>
    obtain ⟨m, degree⟩ := row
    rw [lower?] at h
    split at h
    · split at h
      · cases h
      · cases h
        simp only [total]
        omega
    · obtain ⟨⟨_, rest'⟩, hrest, heq⟩ := Option.map_eq_some_iff.mp h
      cases heq
      simp only [total, ih hrest]
      omega

theorem work_follow_le {s s' : Countdown} {n : Nat} (h : s.follow le n = some s') :
    s'.work ≤ s.work := by
  obtain ⟨⟨left, degrees⟩, hlower, rfl⟩ := Option.map_eq_some_iff.mp h
  have htotal := total_of_lower? hlower
  have hinsert := (insertBy_perm le n s.ready).length_eq
  rw [List.length_cons] at hinsert
  simp only [work, htotal]
  split <;> omega

/-- Following edges makes at most one node ready for each of them. -/
theorem work_foldlM_le {s s' : Countdown} {targets : List Nat}
    (h : targets.foldlM (follow le) s = some s') : s'.work ≤ s.work := by
  induction targets generalizing s with
  | nil =>
    cases h
    exact Nat.le_refl _
  | cons n rest ih =>
    obtain ⟨next, hnext, hrest⟩ := Option.bind_eq_some_iff.mp h
    exact Nat.le_trans (ih hrest) (work_follow_le le hnext)

theorem work_cons (degrees : List (Nat × Nat)) (n : Nat) (rest : List Nat) :
    work ⟨degrees, rest⟩ < work ⟨degrees, n :: rest⟩ := by
  simp only [work, List.length_cons]
  omega

/-- Takes the first node that is ready, follows the edges that leave it, and goes on until no node
is ready. -/
def run (edges : List Edge) : Countdown → Option (List Nat)
  | ⟨_, []⟩ => some []
  | ⟨degrees, n :: rest⟩ =>
    match hnext : ((edges.filter (·.source = n)).map Edge.target).foldlM (follow le)
        ⟨degrees, rest⟩ with
    | none => none
    | some next =>
      have : next.work < work ⟨degrees, n :: rest⟩ :=
        Nat.lt_of_le_of_lt (work_foldlM_le le hnext) (work_cons degrees n rest)
      (run edges next).map (n :: ·)
termination_by s => s.work

/-- The sort of some nodes before the first is taken. -/
def start (nodes : List Nat) (edges : List Edge) : Countdown :=
  let degrees := nodes.map fun n ↦ (n, edges.countP (·.target = n))
  ⟨degrees, sortBy le ((degrees.filter (·.2 = 0)).map (·.1))⟩

end Countdown

namespace Circuit

/-- The ranks of the nodes by number. -/
def ranks (g : Circuit) : Array (Nat × Nat) :=
  (g.nodes.cells.map fun cell ↦ cell.elim (0, 0) Node.rank).toArray

/-- Whether a node comes before another one, or is it: by rank, then by number. -/
def notAfter (ranks : Array (Nat × Nat)) (m n : Nat) : Bool :=
  let (p, q) := (ranks.getD m (0, 0), ranks.getD n (0, 0))
  p.1 < q.1 || p.1 = q.1 && (p.2 < q.2 || p.2 = q.2 && m ≤ n)

/-- The nodes that are taken, in order, unless an edge is followed into a node whose count is
missing or zero. -/
def taken? (g : Circuit) : Option (List Nat) :=
  let edges := g.edges.values
  let le := notAfter g.ranks
  (Countdown.start le (g.nodes.entries.map (·.1)) edges).run le edges

/-- The gates in order. -/
def ordered (g : Circuit) : Except CircuitFault (List Nat) :=
  match g.taken? with
  | none => .error .invalidNode
  | some taken =>
    if taken.length = g.nodes.size then .ok (taken.filter fun n ↦ (g.gate? n).isSome)
    else .error (.invalidShape .cycle)

/-- A gate of the circuit as an application to qubits. -/
def application (g : Circuit) (n : Nat) : Except CircuitFault Application :=
  match g.gate? n with
  | none => .error .invalidNode
  | some payload => do
    let targets ← payload.targets.mapM g.qubitOf
    let guards ← payload.guards.mapM fun c ↦
      (g.qubitOf c.wire).map fun q ↦ Guard.mk q c.negated
    return ⟨payload.gate, targets, guards⟩

/-- The declarations of a circuit followed by its gates in order. -/
def toProgram (g : Circuit) : Except CircuitFault Program := do
  let applications ← (← g.ordered).mapM g.application
  return g.declarations.map .declare ++ applications.map .apply

end Circuit

end Peephole
