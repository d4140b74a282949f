import Mathlib.Algebra.Order.Field.Power
import Mathlib.Algebra.Order.Ring.Rat
import Mathlib.Tactic.Linarith
import Mathlib.Tactic.NormNum
import Mathlib.Tactic.Positivity
import Mathlib.Tactic.Ring

/-!
# Nearest numbers

The binary64 numbers without a sign are numbered by their bits, and `magnitude` is the value of
each. It grows with the bits (`magnitude_strictMono`). `IsNearest` says which of these numbers a
rational is rounded to: the nearest one, of two that are equally near the one whose last bit is
zero, and infinity from the middle between the largest number and the next power of two on. There is
only one such number (`IsNearest.unique`), and it is enough to look at the middles to its two
neighbours (`isNearest_of_middles`).
-/

set_option autoImplicit false
set_option relaxedAutoImplicit false

namespace Peephole.Binary64

/-! ### Magnitudes -/

/-- The bits of infinity. -/
def infinityBits : ℕ :=
  2047 * 2 ^ 52

/-- The value of the number with the given bits and no sign. For the bits of infinity it is the
power of two that comes after the largest number. -/
def magnitude (k : ℕ) : ℚ :=
  if k < 2 ^ 52 then k * 2 ^ (-1074 : ℤ)
  else (2 ^ 52 + (k % 2 ^ 52 : ℕ)) * 2 ^ ((k / 2 ^ 52 : ℕ) - 1075 : ℤ)

/-- The multiples of a power of two follow each other as long as they have 53 bits, and on the least
power of two from zero on. -/
theorem magnitude_eq {t n : ℕ} (hlow : t = 0 ∨ 2 ^ 52 ≤ n) (hhigh : n ≤ 2 ^ 53) :
    magnitude (t * 2 ^ 52 + n) = n * 2 ^ (t - 1074 : ℤ) := by
  unfold magnitude
  by_cases hsmall : n < 2 ^ 52
  · obtain rfl : t = 0 := hlow.resolve_right (by omega)
    rw [if_pos (by omega)]
    norm_num
  rw [if_neg (by omega)]
  rcases hhigh.lt_or_eq with hlt | rfl
  · have hdiv : (t * 2 ^ 52 + n) / 2 ^ 52 = t + 1 := by omega
    have hmod : (t * 2 ^ 52 + n) % 2 ^ 52 = n - 2 ^ 52 := by omega
    rw [hdiv, hmod, Nat.cast_sub (by omega)]
    push_cast
    rw [show ((t : ℤ) + 1 - 1075) = t - 1074 by ring]
    ring
  · have hdiv : (t * 2 ^ 52 + 2 ^ 53) / 2 ^ 52 = t + 2 := by omega
    have hmod : (t * 2 ^ 52 + 2 ^ 53) % 2 ^ 52 = 0 := by omega
    rw [hdiv, hmod]
    push_cast
    rw [show ((t : ℤ) + 2 - 1075) = (t - 1074) + 1 by ring, zpow_add_one₀ two_ne_zero]
    ring

/-- Every number is such a multiple. -/
theorem exists_multiple (k : ℕ) :
    ∃ t n, k = t * 2 ^ 52 + n ∧ (t = 0 ∨ 2 ^ 52 ≤ n) ∧ n < 2 ^ 53 :=
  ⟨k / 2 ^ 52 - 1, k - (k / 2 ^ 52 - 1) * 2 ^ 52, by omega, by omega, by omega⟩

theorem magnitude_strictMono : StrictMono magnitude := by
  refine strictMono_nat_of_lt_succ fun k ↦ ?_
  obtain ⟨t, n, rfl, hlow, hhigh⟩ := exists_multiple k
  rw [magnitude_eq hlow hhigh.le, Nat.add_assoc, magnitude_eq (by omega) (by omega)]
  push_cast
  gcongr
  linarith

theorem magnitude_zero : magnitude 0 = 0 := by
  simp [magnitude]

theorem magnitude_one : magnitude 1 = 2 ^ (-1074 : ℤ) := by
  simp [magnitude]

theorem magnitude_infinityBits : magnitude infinityBits = 2 ^ (1024 : ℤ) := by
  have hinfinity : infinityBits = 2045 * 2 ^ 52 + 2 ^ 53 := rfl
  have hpower : ((2 ^ 53 : ℕ) : ℚ) = 2 ^ (53 : ℤ) := by norm_num
  rw [hinfinity, magnitude_eq (.inr (by norm_num)) le_rfl, hpower, ← zpow_add₀ two_ne_zero]
  rfl

/-! ### The nearest one -/

/-- The number to which a rational that is not negative is rounded. -/
structure IsNearest (v : ℚ) (x : Float) : Prop where
  unsigned : x.toBits.toNat ≤ infinityBits
  closest : ∀ k ≤ infinityBits, |v - magnitude x.toBits.toNat| ≤ |v - magnitude k|
  even : ∀ k ≤ infinityBits, k ≠ x.toBits.toNat →
    |v - magnitude x.toBits.toNat| = |v - magnitude k| → x.toBits.toNat % 2 = 0

section Distances

variable {v a b : ℚ}

/-- Above the middle the larger number is nearer. -/
theorem abs_sub_le_of_middle_le (hab : a < b) (h : a + b ≤ 2 * v) : |v - b| ≤ |v - a| := by
  rw [abs_of_pos (show 0 < v - a by linarith)]
  exact abs_le.mpr ⟨by linarith, by linarith⟩

theorem abs_sub_le_of_le_middle (hab : a < b) (h : 2 * v ≤ a + b) : |v - a| ≤ |v - b| := by
  rw [abs_of_neg (show v - b < 0 by linarith)]
  exact abs_le.mpr ⟨by linarith, by linarith⟩

/-- What is equally far from two numbers is their middle. -/
theorem two_mul_eq_of_abs_sub_eq (hab : a ≠ b) (h : |v - a| = |v - b|) : 2 * v = a + b := by
  rcases abs_eq_abs.mp h with h | h
  · exact absurd (by linarith) hab
  · linarith

end Distances

section Nearest

variable {v : ℚ} {x y : Float}

/-- A number is the nearest one if the rational lies between the middles to the neighbours. -/
theorem isNearest_of_middles (hx : x.toBits.toNat ≤ infinityBits)
    (hlow : ∀ k, k + 1 = x.toBits.toNat → magnitude k + magnitude x.toBits.toNat ≤ 2 * v)
    (hhigh : x.toBits.toNat < infinityBits →
      2 * v ≤ magnitude x.toBits.toNat + magnitude (x.toBits.toNat + 1))
    (heven : x.toBits.toNat % 2 = 1 →
      (∀ k, k + 1 = x.toBits.toNat → magnitude k + magnitude x.toBits.toNat ≠ 2 * v) ∧
        2 * v ≠ magnitude x.toBits.toNat + magnitude (x.toBits.toNat + 1)) :
    IsNearest v x := by
  generalize hbits : x.toBits.toNat = k at *
  -- The middles to numbers further away are further away.
  have hbelow (j : ℕ) (hj : j < k) : magnitude j + magnitude k ≤ 2 * v ∧
      (k % 2 = 1 → magnitude j + magnitude k ≠ 2 * v) := by
    have hmono := magnitude_strictMono.monotone (show j ≤ k - 1 by omega)
    have hle := hlow (k - 1) (by omega)
    refine ⟨by linarith, fun hodd heq ↦ (heven hodd).1 (k - 1) (by omega) ?_⟩
    linarith
  have habove (j : ℕ) (hj : k < j) (hinf : j ≤ infinityBits) : 2 * v ≤ magnitude k + magnitude j ∧
      (k % 2 = 1 → 2 * v ≠ magnitude k + magnitude j) := by
    have hmono := magnitude_strictMono.monotone (show k + 1 ≤ j from hj)
    have hle := hhigh (by omega)
    refine ⟨by linarith, fun hodd heq ↦ (heven hodd).2 ?_⟩
    linarith
  refine ⟨hbits ▸ hx, fun j hj ↦ ?_, fun j hj hne heq ↦ ?_⟩
  · rw [hbits]
    rcases lt_trichotomy j k with hlt | rfl | hgt
    · exact abs_sub_le_of_middle_le (magnitude_strictMono hlt) (hbelow j hlt).1
    · exact le_rfl
    · exact abs_sub_le_of_le_middle (magnitude_strictMono hgt) (habove j hgt hj).1
  · rw [hbits] at hne heq ⊢
    have hmiddle := two_mul_eq_of_abs_sub_eq (magnitude_strictMono.injective.ne hne.symm) heq
    by_contra hodd
    rcases lt_or_gt_of_ne hne with hlt | hgt
    · exact (hbelow j hlt).2 (by omega) (by linarith)
    · exact (habove j hgt hj).2 (by omega) (by linarith)

/-- Two numbers cannot both be nearest: they would be even, and another one is between them. -/
theorem not_lt_of_isNearest (hx : IsNearest v x) (hy : IsNearest v y) :
    ¬ x.toBits.toNat < y.toBits.toNat := by
  intro hlt
  have heq := le_antisymm (hx.closest _ hy.unsigned) (hy.closest _ hx.unsigned)
  have hevenx := hx.even _ hy.unsigned hlt.ne' heq
  have heveny := hy.even _ hx.unsigned hlt.ne heq.symm
  have hmiddle := two_mul_eq_of_abs_sub_eq (magnitude_strictMono hlt).ne heq
  have hbetween := hx.closest (x.toBits.toNat + 1) (by have := hy.unsigned; omega)
  have hlow := magnitude_strictMono (show x.toBits.toNat < x.toBits.toNat + 1 by omega)
  have hhigh := magnitude_strictMono (show x.toBits.toNat + 1 < y.toBits.toNat by omega)
  rw [abs_of_pos (by linarith)] at hbetween
  exact absurd hbetween (not_le.mpr (abs_lt.mpr ⟨by linarith, by linarith⟩))

theorem IsNearest.unique (hx : IsNearest v x) (hy : IsNearest v y) : x = y := by
  have hbits : x.toBits.toNat = y.toBits.toNat :=
    Nat.le_antisymm (Nat.le_of_not_lt (not_lt_of_isNearest hy hx))
      (Nat.le_of_not_lt (not_lt_of_isNearest hx hy))
  obtain ⟨⟨bits, _⟩⟩ := x
  obtain ⟨⟨bits', _⟩⟩ := y
  obtain rfl : bits = bits' := UInt64.toNat_inj.mp hbits
  rfl

theorem isNearest_infinity (hx : x.toBits.toNat = infinityBits) (hv : 2 ^ (1024 : ℤ) ≤ v) :
    IsNearest v x := by
  rw [← magnitude_infinityBits] at hv
  refine isNearest_of_middles hx.le (fun k hk ↦ ?_) (fun hlt ↦ absurd hx hlt.ne) fun hodd ↦ ?_
  · have hmono := magnitude_strictMono (show k < infinityBits by omega)
    rw [hx]
    linarith
  · rw [hx] at hodd
    exact absurd hodd (by decide)

theorem isNearest_zero (hx : x.toBits.toNat = 0) (hv : v ≤ 2 ^ (-1075 : ℤ)) : IsNearest v x := by
  refine isNearest_of_middles (by omega) (fun k hk ↦ by omega) (fun _ ↦ ?_) fun hodd ↦ by omega
  rw [hx, magnitude_zero, zero_add, magnitude_one,
    show (-1074 : ℤ) = -1075 + 1 by norm_num, zpow_add_one₀ two_ne_zero]
  linarith

end Nearest

end Peephole.Binary64
