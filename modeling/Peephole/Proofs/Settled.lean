import Peephole.Proofs.Identities

/-!
# Wires in a known basis state

A wire is settled in a state if every amplitude with the other value of the wire is zero. All wires
of `ground` are settled. A wire stays settled under gates of which it is no target
(`Settled.act_of_not_mem`) and under matrices that keep or swap its two values
(`Settled.turn_diagonal`, `Settled.turn_antidiagonal`). A guard on a settled wire is decided: guards
that hold can be dropped (`Settled.act_filter`), and a gate with a guard that fails does nothing
(`Settled.act_eq_self`).
-/

set_option autoImplicit false
set_option relaxedAutoImplicit false

namespace Peephole

universe u v

variable {R : Type u} [CommRing R] {W : Type v} [DecidableEq W]

/-- A wire has a value in every basis state whose amplitude is not zero. -/
def Settled (w : W) (value : Bool) (ψ : State W R) : Prop :=
  ∀ b, b w ≠ value → ψ b = 0

variable {w : W} {value : Bool} {ψ : State W R} {I : Interpretation R} {gate : Gate}
  {guards : List (W × Bool)} {targets : List W} {m : Matrix Bool Bool R}

omit [DecidableEq W] in
theorem settled_ground (w : W) : Settled w false (ground : State W R) := by
  intro b hb
  exact if_neg fun hzero ↦ hb (hzero w)

namespace Settled

variable (h : Settled w value ψ)

include h

/-- Where a settled wire has the wrong value, a gate elsewhere leaves nothing. -/
theorem act_of_not_mem (hw : w ∉ targets) : Settled w value (I.act gate guards targets ψ) := by
  intro b hb
  by_cases hholds : holds guards b = true
  · rw [I.act_of_holds hholds]
    refine Finset.sum_eq_zero fun values _ ↦ ?_
    rw [h _ (by rwa [assign_of_not_mem hw]), mul_zero]
  · rw [I.act_of_not_holds hholds, h b hb]

theorem turn_diagonal (hm : ∀ x, m x (!x) = 0) : Settled w value (turn m [] w ψ) := by
  intro b hb
  rw [turn_of_holds rfl]
  refine Finset.sum_eq_zero fun x _ ↦ ?_
  by_cases hx : x = b w
  · rw [h _ (by rwa [Function.update_self, hx]), mul_zero]
  · rw [Bool.eq_not_of_ne hx, hm, zero_mul]

theorem turn_antidiagonal (hm : ∀ x, m x x = 0) : Settled w (!value) (turn m [] w ψ) := by
  intro b hb
  rw [turn_of_holds rfl]
  refine Finset.sum_eq_zero fun x _ ↦ ?_
  by_cases hx : x = b w
  · rw [hx, hm, zero_mul]
  · have hvalue : x ≠ value := by
      rw [Bool.eq_not_of_ne hx]
      exact fun heq ↦ hb (by rw [← heq, Bool.not_not])
    rw [h _ (by rwa [Function.update_self]), mul_zero]

/-- Guards on a settled wire that hold for its value can be dropped. -/
theorem act_filter (hw : w ∉ targets) (hguards : ∀ c ∈ guards, c.1 = w → c.2 ≠ value) :
    I.act gate (guards.filter (·.1 ≠ w)) targets ψ = I.act gate guards targets ψ := by
  funext b
  by_cases hb : b w = value
  · have hholds : holds (guards.filter (·.1 ≠ w)) b = holds guards b := by
      rw [Bool.eq_iff_iff, holds, holds, List.all_eq_true, List.all_eq_true]
      constructor
      · intro hrest c hc
        by_cases hcw : c.1 = w
        · rw [hcw, hb]
          simpa using Ne.symm (hguards c hc hcw)
        · exact hrest c (List.mem_filter.mpr ⟨hc, by simpa using hcw⟩)
      · exact fun hall c hc ↦ hall c (List.mem_filter.mp hc).1
    rw [Interpretation.act, Interpretation.act, hholds]
  · rw [h.act_of_not_mem hw b hb, h.act_of_not_mem hw b hb]

/-- A gate with a guard that fails for the value of a settled wire does nothing. -/
theorem act_eq_self (hw : w ∉ targets) {c : W × Bool} (hc : c ∈ guards) (hcw : c.1 = w)
    (hvalue : c.2 = value) : I.act gate guards targets ψ = ψ := by
  funext b
  by_cases hb : b w = value
  · refine I.act_of_not_holds (fun hholds ↦ ?_) ψ
    have hguard := List.all_eq_true.mp hholds c hc
    rw [hcw, hb, hvalue] at hguard
    simp at hguard
  · rw [h.act_of_not_mem hw b hb, h b hb]

end Settled

end Peephole
