import Mathlib.Data.Fin.VecNotation
import Mathlib.Data.Fintype.BigOperators
import Mathlib.Logic.Equiv.Basic
import Mathlib.Tactic.FinCases
import Mathlib.Tactic.LinearCombination
import Peephole.Proofs.States

/-!
# Identities of gates

On one target a gate with a fixed meaning applies a two by two matrix to a single wire where its
guards hold (`turn`). Matrices applied in turn under the same guards multiply (`turn_turn`), and a
matrix between two applications of a matrix that is its own inverse needs the guards of the middle
only (`turn_sandwich`). From the products of the matrices themselves follow the identities behind
the rules: a gate applied twice does nothing (`Interpretation.act_act`), an X between Hadamards is a
Z and the other way round (`Interpretation.act_sandwich`), and a controlled not between Hadamards on
both wires changes direction (`Interpretation.turn_reverse`).
-/

set_option autoImplicit false
set_option relaxedAutoImplicit false

namespace Peephole

universe u v

variable {R : Type u} [CommRing R] {W : Type v} [DecidableEq W]

/-- What a matrix does to one wire where guards hold. -/
def turn (m : Matrix Bool Bool R) (guards : List (W × Bool)) (t : W) (ψ : State W R) : State W R :=
  fun b ↦ if holds guards b then ∑ x, m (b t) x * ψ (Function.update b t x) else ψ b

section Turning

variable {m n : Matrix Bool Bool R} {guards guards' : List (W × Bool)} {t c : W} {b : W → Bool}
  {ψ φ : State W R}

theorem turn_of_holds (h : holds guards b = true) :
    turn m guards t ψ b = ∑ x, m (b t) x * ψ (Function.update b t x) :=
  if_pos h

theorem turn_of_not_holds (h : ¬ holds guards b = true) : turn m guards t ψ b = ψ b :=
  if_neg h

/-- Guards on other wires do not see what happens to a wire. -/
theorem holds_update (ht : ∀ c ∈ guards, c.1 ≠ t) (x : Bool) :
    holds guards (Function.update b t x) = holds guards b :=
  holds_of_eq fun c hc ↦ Function.update_of_ne (ht c hc) x b

/-- What happens to a wire in a basis state depends on the two values of the wire only. -/
theorem turn_congr (h : ∀ x, ψ (Function.update b t x) = φ (Function.update b t x)) :
    turn m guards t ψ b = turn m guards t φ b := by
  have hb : ψ b = φ b := by
    have hself := h (b t)
    rwa [Function.update_eq_self] at hself
  by_cases hholds : holds guards b = true
  · rw [turn_of_holds hholds, turn_of_holds hholds]
    exact Finset.sum_congr rfl fun x _ ↦ by rw [h x]
  · rw [turn_of_not_holds hholds, turn_of_not_holds hholds, hb]

theorem turn_turn (ht : ∀ c ∈ guards, c.1 ≠ t) :
    turn m guards t (turn n guards t ψ) = turn (m * n) guards t ψ := by
  funext b
  by_cases hb : holds guards b = true
  · have hinner (x : Bool) : turn n guards t ψ (Function.update b t x) =
        ∑ y, n x y * ψ (Function.update b t y) := by
      rw [turn_of_holds (by rw [holds_update ht, hb]), Function.update_self]
      exact Finset.sum_congr rfl fun y _ ↦ by rw [Function.update_idem]
    rw [turn_of_holds hb, turn_of_holds hb]
    simp only [hinner, Matrix.mul_apply, Fintype.sum_bool]
    ring
  · rw [turn_of_not_holds hb, turn_of_not_holds hb, turn_of_not_holds hb]

theorem turn_one : turn (1 : Matrix Bool Bool R) guards t ψ = ψ := by
  funext b
  by_cases hb : holds guards b = true
  · rw [turn_of_holds hb, Finset.sum_eq_single (b t)]
    · rw [Matrix.one_apply_eq, one_mul, Function.update_eq_self]
    · intro x _ hx
      rw [Matrix.one_apply_ne (Ne.symm hx), zero_mul]
    · exact fun hx ↦ absurd (Finset.mem_univ _) hx
  · exact turn_of_not_holds hb

/-- The outer guards of a matrix between two copies of its own inverse are not needed. -/
theorem turn_sandwich (hn : n * n = 1) (ht : ∀ c ∈ guards', c.1 ≠ t) (hsub : guards ⊆ guards') :
    turn n guards t (turn m guards' t (turn n guards t ψ)) = turn (n * m * n) guards' t ψ := by
  have ht' : ∀ c ∈ guards, c.1 ≠ t := fun c hc ↦ ht c (hsub hc)
  funext b
  by_cases hb : holds guards' b = true
  · have hb' := holds_of_subset hsub hb
    have hmiddle (x : Bool) : turn m guards' t (turn n guards t ψ) (Function.update b t x) =
        turn m guards t (turn n guards t ψ) (Function.update b t x) := by
      rw [turn_of_holds (by rw [holds_update ht, hb]),
        turn_of_holds (by rw [holds_update ht', hb'])]
    rw [turn_congr hmiddle, turn_turn ht', turn_turn ht', turn_of_holds hb', turn_of_holds hb]
  · have hmiddle (x : Bool) : turn m guards' t (turn n guards t ψ) (Function.update b t x) =
        turn n guards t ψ (Function.update b t x) :=
      turn_of_not_holds (by rw [holds_update ht]; exact hb)
    rw [turn_congr hmiddle, turn_turn ht', hn, turn_one, turn_of_not_holds hb]

end Turning

namespace Interpretation

variable (I : Interpretation R)

/-! ### Products of matrices -/

theorem hadamard_mul_hadamard : I.hadamard * I.hadamard = 1 := by
  ext x y
  have hroot := I.two_mul_root
  rw [Matrix.mul_apply, Fintype.sum_bool]
  cases x <;> cases y <;> simp [hadamard] <;> linear_combination hroot

theorem pauliX_mul_pauliX : (pauliX * pauliX : Matrix Bool Bool R) = 1 := by
  ext x y
  rw [Matrix.mul_apply, Fintype.sum_bool]
  cases x <;> cases y <;> simp [pauliX]

theorem pauliY_mul_pauliY : I.pauliY * I.pauliY = 1 := by
  ext x y
  have hunit := I.unit_mul_unit
  rw [Matrix.mul_apply, Fintype.sum_bool]
  cases x <;> cases y <;> simp [pauliY, hunit]

theorem pauliZ_mul_pauliZ : (pauliZ * pauliZ : Matrix Bool Bool R) = 1 := by
  ext x y
  rw [Matrix.mul_apply, Fintype.sum_bool]
  cases x <;> cases y <;> simp [pauliZ]

theorem hadamard_pauliX : I.hadamard * pauliX * I.hadamard = pauliZ := by
  ext x y
  have hroot := I.two_mul_root
  simp only [Matrix.mul_apply, Fintype.sum_bool]
  cases x <;> cases y <;> simp [hadamard, pauliX, pauliZ]
  · linear_combination hroot
  · linear_combination -hroot

/-- The other direction follows from the first. -/
theorem hadamard_pauliZ : I.hadamard * pauliZ * I.hadamard = pauliX := by
  rw [← I.hadamard_pauliX, Matrix.mul_assoc, Matrix.mul_assoc, Matrix.mul_assoc,
    I.hadamard_mul_hadamard, Matrix.mul_one, ← Matrix.mul_assoc, I.hadamard_mul_hadamard,
    Matrix.one_mul]

/-! ### Gates with a fixed meaning -/

/-- The matrix of a gate with one target and a fixed meaning. -/
def fixed : StandardGate → Option (Matrix Bool Bool R)
  | .h => some I.hadamard
  | .x => some pauliX
  | .y => some I.pauliY
  | .z => some pauliZ
  | _ => none

variable {I} {gate : StandardGate} {m : Matrix Bool Bool R} {guards guards' : List (W × Bool)}
  {t c : W}

theorem fixed_mul_self (hm : I.fixed gate = some m) : m * m = 1 := by
  cases gate <;> cases hm
  · exact pauliX_mul_pauliX
  · exact I.pauliY_mul_pauliY
  · exact pauliZ_mul_pauliZ
  · exact I.hadamard_mul_hadamard

theorem assign_singleton (values : Fin [t].length → Bool) (b : W → Bool) :
    assign [t] values b = Function.update b t (values 0) := by
  funext w
  by_cases hw : w = t
  · subst hw
    rw [assign_of_mem (List.mem_singleton.mpr rfl), Function.update_self]
    congr 1
    exact Fin.ext List.idxOf_cons_self
  · rw [assign_of_not_mem (by simpa using hw), Function.update_of_ne hw]

/-- A gate with one target turns one wire. -/
theorem act_singleton (hm : I.fixed gate = some m) :
    (I.act (.standard gate) guards [t] : State W R → State W R) = turn m guards t := by
  have hmatrix : I.matrix (.standard gate) 1 = m.submatrix (· 0) (· 0) := by
    cases gate <;> cases hm <;> rfl
  funext ψ b
  by_cases hb : holds guards b = true
  · rw [act_of_holds I hb, turn_of_holds hb]
    refine Fintype.sum_equiv (Equiv.funUnique (Fin 1) Bool) _ _ fun values ↦ ?_
    rw [assign_singleton]
    change I.matrix (.standard gate) 1 _ values * _ = _
    rw [hmatrix]
    rfl
  · rw [act_of_not_holds I hb, turn_of_not_holds hb]

theorem assign_pair (hne : c ≠ t) {values : Fin [c, t].length → Bool} {b : W → Bool}
    (hc : values 0 = b c) : assign [c, t] values b = Function.update b t (values 1) := by
  funext w
  by_cases ht : w = t
  · subst ht
    have hindex : [c, w].idxOf w = 1 := by
      rw [List.idxOf_cons_ne _ hne, List.idxOf_cons_self]
    rw [assign_of_mem (by simp), Function.update_self]
    congr 1
    exact Fin.ext hindex
  · rw [Function.update_of_ne ht]
    by_cases hw : w = c
    · subst hw
      rw [assign_of_mem List.mem_cons_self, ← hc]
      congr 1
      exact Fin.ext List.idxOf_cons_self
    · exact assign_of_not_mem (by simp [hw, ht])

/-- A CX is an X on its second target, guarded by the first. -/
theorem act_controlledNot (hne : c ≠ t) :
    (I.act (.standard .cx) [] [c, t] : State W R → State W R) = turn pauliX [(c, false)] t := by
  funext ψ b
  have hflip : I.act (.standard .cx) [] [c, t] ψ b = ψ (Function.update b t (b c ^^ b t)) := by
    refine (act_of_holds I rfl ψ).trans ((Finset.sum_eq_single ![b c, b c ^^ b t] ?_ ?_).trans ?_)
    · intro values _ hvalues
      change controlledNot (fun i ↦ b ([c, t].get i)) values * _ = _
      rw [controlledNot, if_neg, zero_mul]
      rintro ⟨hfirst, hsecond⟩
      refine hvalues (funext fun i ↦ ?_)
      fin_cases i
      · exact hfirst.symm
      · change b t = (values 0 ^^ values 1) at hsecond
        change b c = values 0 at hfirst
        change values 1 = (b c ^^ b t)
        rw [hsecond, hfirst]
        simp
    · exact fun hvalues ↦ absurd (Finset.mem_univ _) hvalues
    · rw [assign_pair hne rfl]
      change controlledNot (fun i ↦ b ([c, t].get i)) ![b c, b c ^^ b t] * _ = _
      rw [controlledNot, if_pos (by simp), one_mul]
      rfl
  rw [hflip]
  by_cases hb : b c = true
  · rw [turn_of_holds (by simp [holds, hb]), Fintype.sum_bool, hb]
    cases b t <;> simp [pauliX]
  · rw [turn_of_not_holds (by simp [holds, hb]), Bool.eq_false_iff.mpr hb, Bool.false_xor,
      Function.update_eq_self]

/-! ### Identities behind the rules -/

/-- A gate with one target and a fixed meaning undoes itself. -/
theorem act_act (hm : I.fixed gate = some m) (ht : ∀ c ∈ guards, c.1 ≠ t) (ψ : State W R) :
    I.act (.standard gate) guards [t] (I.act (.standard gate) guards [t] ψ) = ψ := by
  rw [act_singleton hm, turn_turn ht, fixed_mul_self hm, turn_one]

/-- The gates that take each other's place between Hadamards. -/
def Conjugate (middle replacement : StandardGate) : Prop :=
  middle = .x ∧ replacement = .z ∨ middle = .z ∧ replacement = .x

/-- A gate between two Hadamards under some of its guards is another gate. -/
theorem act_sandwich {middle replacement : StandardGate} (h : Conjugate middle replacement)
    (ht : ∀ c ∈ guards', c.1 ≠ t) (hsub : guards ⊆ guards') (ψ : State W R) :
    I.act (.standard .h) guards [t]
        (I.act (.standard middle) guards' [t] (I.act (.standard .h) guards [t] ψ)) =
      I.act (.standard replacement) guards' [t] ψ := by
  have hh : I.fixed .h = some I.hadamard := rfl
  have hx : I.fixed .x = some pauliX := rfl
  have hz : I.fixed .z = some pauliZ := rfl
  rcases h with ⟨rfl, rfl⟩ | ⟨rfl, rfl⟩
  · rw [act_singleton hh, act_singleton hx, act_singleton hz,
      turn_sandwich I.hadamard_mul_hadamard ht hsub, I.hadamard_pauliX]
  · rw [act_singleton hh, act_singleton hx, act_singleton hz,
      turn_sandwich I.hadamard_mul_hadamard ht hsub, I.hadamard_pauliZ]

/-- A controlled Z does not tell its wires apart. -/
theorem turn_pauliZ_comm : (turn pauliZ [(c, false)] t : State W R → State W R) =
    turn pauliZ [(t, false)] c := by
  have hdiagonal (c t : W) (ψ : State W R) (b : W → Bool) :
      turn pauliZ [(c, false)] t ψ b = if b c && b t then -ψ b else ψ b := by
    have hself : Function.update b t (b t) = b := Function.update_eq_self t b
    by_cases hc : b c = true
    · rw [turn_of_holds (by simp [holds, hc]), Finset.sum_eq_single (b t), hself]
      · cases b t <;> simp [pauliZ, hc]
      · intro x _ hx
        rw [pauliZ, if_neg (Ne.symm hx), zero_mul]
      · exact fun hx ↦ absurd (Finset.mem_univ _) hx
    · rw [turn_of_not_holds (by simp [holds, hc])]
      simp [hc]
  funext ψ b
  rw [hdiagonal, hdiagonal, Bool.and_comm]

/-- Hadamards on both wires turn a controlled not around. -/
theorem turn_reverse (hne : c ≠ t) (ψ : State W R) :
    turn I.hadamard [] c (turn I.hadamard [] t (turn pauliX [(c, false)] t
        (turn I.hadamard [] t (turn I.hadamard [] c ψ)))) =
      turn pauliX [(t, false)] c ψ := by
  have hc : ∀ d ∈ [(c, false)], d.1 ≠ t := by simpa using hne
  have ht : ∀ d ∈ [(t, false)], d.1 ≠ c := by simpa using Ne.symm hne
  have hsub (w : W) : [] ⊆ [(w, false)] := List.nil_subset _
  rw [turn_sandwich I.hadamard_mul_hadamard hc (hsub c), I.hadamard_pauliX, turn_pauliZ_comm,
    turn_sandwich I.hadamard_mul_hadamard ht (hsub t), I.hadamard_pauliZ]

end Interpretation

end Peephole
