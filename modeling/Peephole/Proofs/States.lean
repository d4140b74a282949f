import Mathlib.Algebra.BigOperators.Ring.Finset
import Mathlib.Data.Fintype.Pi
import Mathlib.Data.Matrix.Mul
import Mathlib.Logic.Function.Conjugate
import Peephole.Program.Basic

/-!
# What programs do to states

A `State` gives every basis state of some wires its amplitude, in a commutative ring that has a
square root of one half and a square root of minus one. An `Interpretation` fixes these roots and
the meaning of the gates: H, X, Y, Z and CX are the usual matrices, every other gate is any matrix
at all for each number of targets. A gate acts on its targets in those basis states in which all its
guards hold (`Interpretation.act`), an application does so on the wires where its qubits are placed,
and a program carries out its applications one after the other (`Program.act`). `ground` is the
state in which every wire is zero.

Gates that have no wire in common can be carried out in either order (`Interpretation.act_comm`),
and a repetition of guards does not matter (`Interpretation.act_congr`).
-/

set_option autoImplicit false
set_option relaxedAutoImplicit false

namespace Peephole

universe u v

/-- The amplitudes of the basis states of some wires. -/
abbrev State (W : Type v) (R : Type u) := (W → Bool) → R

/-- The meaning of the gates over a ring of amplitudes. -/
structure Interpretation (R : Type u) [CommRing R] where
  /-- A square root of one half. -/
  root : R
  /-- A square root of minus one. -/
  unit : R
  two_mul_root : 2 * root * root = 1
  unit_mul_unit : unit * unit = -1
  /-- What a gate without a fixed meaning does to a number of targets. -/
  other : Gate → (k : Nat) → Matrix (Fin k → Bool) (Fin k → Bool) R

section Guards

variable {W : Type v} {guards guards' : List (W × Bool)} {b b' : W → Bool}

/-- Whether guards hold in a basis state. A guard is a wire with a mark that says whether the wire
has to be zero. -/
def holds (guards : List (W × Bool)) (b : W → Bool) : Bool :=
  guards.all fun c ↦ b c.1 != c.2

/-- Whether guards hold depends on their wires only. -/
theorem holds_of_eq (h : ∀ c ∈ guards, b' c.1 = b c.1) : holds guards b' = holds guards b := by
  rw [Bool.eq_iff_iff, holds, holds, List.all_eq_true, List.all_eq_true]
  refine forall₂_congr fun c hc ↦ ?_
  rw [h c hc]

theorem holds_of_subset (h : guards ⊆ guards') (hb : holds guards' b = true) :
    holds guards b = true :=
  List.all_eq_true.mpr fun c hc ↦ List.all_eq_true.mp hb c (h hc)

end Guards

section Assignments

variable {W : Type v} [DecidableEq W] {targets others : List W}
  {values : Fin targets.length → Bool} {values' : Fin others.length → Bool} {b : W → Bool} {w : W}

/-- A basis state with new values on some wires. -/
def assign (targets : List W) (values : Fin targets.length → Bool) (b : W → Bool) : W → Bool :=
  fun w ↦ if h : w ∈ targets then values ⟨targets.idxOf w, List.idxOf_lt_length_iff.mpr h⟩ else b w

theorem assign_of_mem (hw : w ∈ targets) :
    assign targets values b w = values ⟨targets.idxOf w, List.idxOf_lt_length_iff.mpr hw⟩ :=
  dif_pos hw

theorem assign_of_not_mem (hw : w ∉ targets) : assign targets values b w = b w :=
  dif_neg hw

theorem assign_comm (h : ∀ w ∈ targets, w ∉ others) :
    assign targets values (assign others values' b) =
      assign others values' (assign targets values b) := by
  funext w
  by_cases hw : w ∈ targets
  · rw [assign_of_not_mem (h w hw), assign_of_mem hw, assign_of_mem hw]
  · rw [assign_of_not_mem hw]
    by_cases hw' : w ∈ others
    · rw [assign_of_mem hw', assign_of_mem hw']
    · rw [assign_of_not_mem hw', assign_of_not_mem hw', assign_of_not_mem hw]

end Assignments

namespace Interpretation

variable {R : Type u} [CommRing R] (I : Interpretation R)

/-- The Hadamard matrix. -/
def hadamard : Matrix Bool Bool R :=
  fun x y ↦ if x && y then -I.root else I.root

/-- The matrix of X. -/
def pauliX : Matrix Bool Bool R :=
  fun x y ↦ if x = y then 0 else 1

/-- The matrix of Y. -/
def pauliY : Matrix Bool Bool R :=
  fun x y ↦ if x = y then 0 else if x then I.unit else -I.unit

/-- The matrix of Z. -/
def pauliZ : Matrix Bool Bool R :=
  fun x y ↦ if x = y then if x then -1 else 1 else 0

/-- The matrix that flips the second of two wires where the first is one. -/
def controlledNot : Matrix (Fin 2 → Bool) (Fin 2 → Bool) R :=
  fun u v ↦ if u 0 = v 0 ∧ u 1 = (v 0 ^^ v 1) then 1 else 0

/-- The matrix of a gate on a number of targets. -/
def matrix : Gate → (k : Nat) → Matrix (Fin k → Bool) (Fin k → Bool) R
  | .standard .h, 1 => I.hadamard.submatrix (· 0) (· 0)
  | .standard .x, 1 => pauliX.submatrix (· 0) (· 0)
  | .standard .y, 1 => I.pauliY.submatrix (· 0) (· 0)
  | .standard .z, 1 => pauliZ.submatrix (· 0) (· 0)
  | .standard .cx, 2 => controlledNot
  | gate, k => I.other gate k

variable {W : Type v} [DecidableEq W]

/-- What a gate does to its targets where its guards hold. -/
def act (gate : Gate) (guards : List (W × Bool)) (targets : List W) (ψ : State W R) : State W R :=
  fun b ↦
    if holds guards b then
      ∑ values, I.matrix gate targets.length (fun i ↦ b (targets.get i)) values *
        ψ (assign targets values b)
    else ψ b

variable {gate gate' : Gate} {guards guards' : List (W × Bool)} {targets targets' : List W}
  {b : W → Bool} {w : W}

theorem act_of_holds (h : holds guards b = true) (ψ : State W R) :
    I.act gate guards targets ψ b =
      ∑ values, I.matrix gate targets.length (fun i ↦ b (targets.get i)) values *
        ψ (assign targets values b) :=
  if_pos h

theorem act_of_not_holds (h : ¬ holds guards b = true) (ψ : State W R) :
    I.act gate guards targets ψ b = ψ b :=
  if_neg h

/-- Only the set of the guards matters. -/
theorem act_congr (h : guards ⊆ guards') (h' : guards' ⊆ guards) :
    I.act gate guards targets = I.act gate guards' targets := by
  funext ψ b
  by_cases hb : holds guards b = true
  · rw [act_of_holds I hb, act_of_holds I (holds_of_subset h' hb)]
  · rw [act_of_not_holds I hb, act_of_not_holds I fun hb' ↦ hb (holds_of_subset h hb')]

/-- Gates without a common wire can change places. -/
theorem act_comm (htargets : ∀ w ∈ targets, w ∉ targets')
    (hguards : ∀ c ∈ guards, c.1 ∉ targets') (hguards' : ∀ c ∈ guards', c.1 ∉ targets) :
    Function.Commute (I.act gate guards targets : State W R → State W R)
      (I.act gate' guards' targets') := by
  intro ψ
  funext b
  have hholds (values) : holds guards (assign targets' values b) = holds guards b :=
    holds_of_eq fun c hc ↦ assign_of_not_mem (hguards c hc)
  have hholds' (values) : holds guards' (assign targets values b) = holds guards' b :=
    holds_of_eq fun c hc ↦ assign_of_not_mem (hguards' c hc)
  have hvalues (values) : (fun i ↦ assign targets' values b (targets.get i)) =
      fun i ↦ b (targets.get i) :=
    funext fun i ↦ assign_of_not_mem (htargets _ (List.get_mem _ _))
  have hvalues' (values) : (fun i ↦ assign targets values b (targets'.get i)) =
      fun i ↦ b (targets'.get i) :=
    funext fun i ↦ assign_of_not_mem fun hi ↦ htargets _ hi (List.get_mem _ _)
  simp only [act, hholds, hholds', hvalues, hvalues']
  by_cases hb : holds guards b = true
  · by_cases hb' : holds guards' b = true
    · simp only [if_pos hb, if_pos hb', Finset.mul_sum]
      rw [Finset.sum_comm]
      refine Finset.sum_congr rfl fun values' _ ↦ Finset.sum_congr rfl fun values _ ↦ ?_
      rw [assign_comm htargets, mul_left_comm]
    · simp only [if_neg hb']
  · simp only [if_neg hb]

end Interpretation

/-! ### Programs -/

section Programs

variable {R : Type u} [CommRing R] {W : Type v} [DecidableEq W]

/-- What an application does when its qubits are placed on wires. -/
def Application.act (I : Interpretation R) (place : Qubit → W) (a : Application) :
    State W R → State W R :=
  I.act a.gate (a.guards.map fun c ↦ (place c.qubit, c.negated)) (a.targets.map place)

/-- What a program does when its qubits are placed on wires. -/
def Program.act (I : Interpretation R) (place : Qubit → W) (p : Program) (ψ : State W R) :
    State W R :=
  p.applications.foldl (fun ψ a ↦ a.act I place ψ) ψ

open Classical in
/-- The state in which every wire is zero. -/
noncomputable def ground : State W R :=
  fun b ↦ if ∀ w, b w = false then 1 else 0

end Programs

/-- The number of targets of a gate with a fixed meaning. -/
def Gate.fixedArity? : Gate → Option Nat
  | .standard .h => some 1
  | .standard .x => some 1
  | .standard .y => some 1
  | .standard .z => some 1
  | .standard .cx => some 2
  | _ => none

/-- Targets and guards that a gate can act on: the targets are distinct and as many as the gate has
to have, and no guard is on a target. -/
structure WellPlaced {α : Type} (gate : Gate) (targets guards : List α) : Prop where
  nodup : targets.Nodup
  apart : ∀ w ∈ guards, w ∉ targets
  arity : ∀ k, gate.fixedArity? = some k → targets.length = k

instance {α : Type} [DecidableEq α] (gate : Gate) (targets guards : List α) :
    Decidable (WellPlaced gate targets guards) :=
  decidable_of_iff (targets.Nodup ∧ (∀ w ∈ guards, w ∉ targets) ∧
      ∀ k ∈ gate.fixedArity?, targets.length = k)
    ⟨fun ⟨hnodup, hapart, harity⟩ ↦ ⟨hnodup, hapart, harity⟩,
      fun ⟨hnodup, hapart, harity⟩ ↦ ⟨hnodup, hapart, harity⟩⟩

/-- A program whose gates can act on their targets under their guards. -/
def Program.WellFormed (p : Program) : Prop :=
  ∀ a ∈ p.applications, WellPlaced a.gate a.targets (a.guards.map Guard.qubit)

instance (p : Program) : Decidable p.WellFormed :=
  inferInstanceAs (Decidable (∀ a ∈ p.applications,
    WellPlaced a.gate a.targets (a.guards.map Guard.qubit)))

/-- A place for every qubit that a program declares, on a wire of its own. -/
structure Layout (p : Program) (W : Type v) where
  place : Qubit → W
  injOn : Set.InjOn place {q | q ∈ p.declarations.flatMap Declaration.qubits}

end Peephole
