import Peephole.Decimal.Reading
import Peephole.Proofs.Binary64

/-!
# Reading decimals

Every decimal is read as the number nearest to it (`isNearest_nearest`), in all ways in which
decimals are read: with exact powers of ten, where significand and power are numbers themselves, by
a product or a division of naturals (`isNearest_ofScientific`), and by their size alone. So a
decimal in the interval of a number is read as that number (`nearest_eq`).
-/

set_option autoImplicit false
set_option relaxedAutoImplicit false

namespace Peephole.Decimal

open Float.Model Float.Model.UnpackedFloat Binary64

section Exact

variable {n : ℕ} {a b : Float} {u w : UnpackedFloat} {v : ℚ}

theorem isNearest_float_mul (ha : a.toModel.unpack = u) (hb : b.toModel.unpack = w)
    (h : IsNearest v (.ofModel (.pack (UnpackedFloat.mul Format.binary64 u w)))) :
    IsNearest v (a * b) := by
  subst ha hb
  exact h

theorem isNearest_float_div (ha : a.toModel.unpack = u) (hb : b.toModel.unpack = w)
    (h : IsNearest v (.ofModel (.pack (UnpackedFloat.div Format.binary64 u w)))) :
    IsNearest v (a / b) := by
  subst ha hb
  exact h

/-- A natural with all 53 bits. -/
def widened (n : ℕ) : Binary where
  mantissa := n <<< (52 - n.log2)
  exponent := -((52 - n.log2 : ℕ) : ℤ)
  narrowBelow := n <<< (52 - n.log2) = 2 ^ 52

theorem widened_bounds (hpos : 0 < n) (hlt : n < 2 ^ 53) :
    2 ^ 52 ≤ (widened n).mantissa ∧ (widened n).mantissa < 2 ^ 53 := by
  obtain ⟨k, hk⟩ := Nat.le.dest (Nat.le_of_lt_succ (log2_lt_of_lt hlt))
  have hmantissa : (widened n).mantissa = n * 2 ^ k := by
    rw [widened, Nat.shiftLeft_eq, ← hk, Nat.add_sub_cancel_left]
  rw [hmantissa]
  constructor
  · rw [← hk, pow_add]
    exact Nat.mul_le_mul_right _ (Nat.log2_self_le hpos.ne')
  · rw [show 53 = n.log2 + 1 + k by omega, pow_add]
    exact Nat.mul_lt_mul_of_pos_right Nat.lt_log2_self (Nat.two_pow_pos k)

theorem canonical_widened (hpos : 0 < n) (hlt : n < 2 ^ 53) : (widened n).Canonical := by
  obtain ⟨hlow, hhigh⟩ := widened_bounds hpos hlt
  have hexponent : (widened n).exponent = -((52 - n.log2 : ℕ) : ℤ) := rfl
  refine ⟨by omega, hhigh, by omega, by omega, fun _ ↦ hlow, ?_⟩
  rw [show (widened n).narrowBelow = decide ((widened n).mantissa = 2 ^ 52) from rfl,
    decide_eq_true_eq]
  omega

theorem value_widened (n : ℕ) : (widened n).value = n := by
  rw [Binary.value, widened, Nat.shiftLeft_eq, zpow_neg, zpow_natCast]
  push_cast
  field_simp

theorem tracks_value (x : Binary) :
    Tracks (.ofMantissaAndAccuracy x.mantissa .exact) (x.value / 2 ^ x.exponent) := by
  have hvalue : x.value / 2 ^ x.exponent = x.mantissa :=
    mul_div_cancel_right₀ _ (zpow_ne_zero _ two_ne_zero)
  rw [hvalue]
  exact .exact _

/-- A natural of at most 53 bits is rounded to itself. -/
theorem isNearest_toFloat (hpos : 0 < n) (hlt : n < 2 ^ 53) : IsNearest n n.toUInt64.toFloat := by
  have hcanonical := canonical_widened hpos hlt
  have hlog : (widened n).mantissa.log2 = 52 :=
    (Nat.log2_eq_iff hcanonical.pos.ne').mpr (widened_bounds hpos hlt)
  have hlog' := log2_lt_of_lt hlt
  have hsize : n.toUInt64.toNat = n := Nat.mod_eq_of_lt (by omega)
  have hcompare : compare (n : ℤ) 0 = .gt := compare_gt_iff_gt.mpr (by exact_mod_cast hpos)
  have hshift : (0 - Format.binary64.targetExponent (totalExponent n 0)).toNat = 52 - n.log2 := by
    rw [targetExponent_eq, totalExponent]
    omega
  have hround : UnpackedFloat.ofNat Format.binary64 n =
      roundWithAccuracy Format.binary64 .positive (widened n).mantissa (widened n).exponent
        .exact := by
    unfold UnpackedFloat.ofNat UnpackedFloat.ofInt UnpackedFloat.normalize
    rw [hcompare]
    change UnpackedFloat.round Format.binary64 .positive n 0 = _
    unfold UnpackedFloat.round decreaseExponent
    dsimp only
    rw [hshift, zero_sub]
    rfl
  change IsNearest n (.ofModel (.pack (UnpackedFloat.ofNat Format.binary64 n.toUInt64.toNat)))
  rw [hsize, hround]
  refine isNearest_of_tracks (value_widened n ▸ tracks_value (widened n))
    (fun h ↦ absurd h hcanonical.pos.ne') ?_
  rw [targetExponent_eq, totalExponent, hlog]
  omega

/-- A natural of at most 53 bits is a number. -/
theorem unpack_toFloat (hpos : 0 < n) (hlt : n < 2 ^ 53) : n.toUInt64.toFloat.toModel.unpack =
    .finite .positive (widened n).mantissa (widened n).exponent
      (canonical_widened hpos hlt).pos := by
  have hcanonical := canonical_widened hpos hlt
  obtain ⟨y, hy⟩ := representable_of_canonical hcanonical .positive
  have hnearest : IsNearest n y :=
    isNearest_of_covers hcanonical hy (value_widened n ▸ (widened n).covers_value)
  rw [(isNearest_toFloat hpos hlt).unique hnearest, hy]

/-- Whether an unpacked number is a power of ten. -/
def isPowerOfTen (k : ℕ) : UnpackedFloat → Bool
  | .finite .positive m e _ => m * 2 ^ e.toNat = 10 ^ k * 2 ^ (-e).toNat
  | _ => false

theorem isPowerOfTen_table : ∀ k : Fin Float.exactlyRepresentablePowersOfTen.size,
    isPowerOfTen k Float.exactlyRepresentablePowersOfTen[k].toModel.unpack = true := by
  decide +kernel

theorem exists_of_isPowerOfTen {k : ℕ} (h : isPowerOfTen k u = true) :
    ∃ m e hm, u = .finite .positive m e hm ∧ (m * 2 ^ e : ℚ) = 10 ^ k := by
  cases u with
  | notANumber => cases h
  | infinity s => cases h
  | zero s => cases h
  | finite s m e hm =>
    cases s with
    | negative => cases h
    | positive =>
      refine ⟨m, e, hm, rfl, ?_⟩
      have hpower : (m * 2 ^ e.toNat : ℚ) = 10 ^ k * 2 ^ (-e).toNat := by
        exact_mod_cast of_decide_eq_true h
      rw [zpow_eq_div two_ne_zero, ← mul_div_assoc, hpower]
      field_simp

end Exact

/-! ### Decimals -/

section Decimals

variable {x : Binary} {y : Float} {n p : ℕ}

theorem two_zpow_le_ten_zpow {k : ℤ} (hk : 310 ≤ k) : (2 : ℚ) ^ (1024 : ℤ) ≤ 10 ^ k := by
  have hlimit : (2 : ℚ) ^ (1024 : ℤ) ≤ 10 ^ (310 : ℤ) := by
    have hnat : (2 : ℕ) ^ 1024 ≤ 10 ^ 310 := by decide +kernel
    exact_mod_cast hnat
  exact hlimit.trans (zpow_le_zpow_right₀ (by norm_num) hk)

theorem ten_zpow_le_two_zpow {k : ℤ} (hk : k ≤ -331) : (10 : ℚ) ^ k ≤ 2 ^ (-1075 : ℤ) := by
  have hlimit : (10 : ℚ) ^ (-331 : ℤ) ≤ 2 ^ (-1075 : ℤ) := by
    have hnat : (2 : ℕ) ^ 1075 ≤ 10 ^ 331 := by decide +kernel
    rw [zpow_neg, zpow_neg]
    gcongr
    exact_mod_cast hnat
  exact (zpow_le_zpow_right₀ (by norm_num) hk).trans hlimit

/-- A decimal with a very small exponent is rounded to zero. -/
theorem mul_ten_zpow_le (n : ℕ) {e : ℤ} (he : e < -(2048 + (n.log2 : ℤ))) :
    (n * 10 ^ e : ℚ) ≤ 2 ^ (-1075 : ℤ) := calc
  (n * 10 ^ e : ℚ) ≤ 10 ^ ((n.log2 + 1 : ℕ) : ℤ) * 10 ^ e := by
    have hlt : n ≤ 10 ^ (n.log2 + 1) :=
      Nat.lt_log2_self.le.trans (Nat.pow_le_pow_left (by decide) _)
    rw [zpow_natCast]
    gcongr
    exact_mod_cast hlt
  _ = 10 ^ (((n.log2 + 1 : ℕ) : ℤ) + e) := (zpow_add₀ (by norm_num) _ _).symm
  _ ≤ 2 ^ (-1075 : ℤ) := ten_zpow_le_two_zpow (by omega)

/-- The product or the division of naturals gives the nearest number. -/
theorem isNearest_model_ofScientific (hn : 0 < n) (e : ℤ) :
    IsNearest (n * 10 ^ e) (.ofModel (.ofScientific n e)) := by
  have hlimit : (2 ^ Format.binary64.exponentBits : ℤ) = 2048 := rfl
  have hone : (1 : ℚ) ≤ n := by exact_mod_cast hn
  unfold Float.Model.ofScientific UnpackedFloat.ofScientific
  rw [dif_neg hn.ne', hlimit]
  split
  · next hhuge =>
    refine isNearest_infinity toNat_packedInfinity ?_
    exact (two_zpow_le_ten_zpow (by omega)).trans (le_mul_of_one_le_left (by positivity) hone)
  split
  · next htiny => exact isNearest_zero (by decide +kernel) (mul_ten_zpow_le n htiny)
  split
  · next hpositive =>
    have hmantissa : n <<< Format.binary64.mantissaBits = n * 2 ^ 53 := Nat.shiftLeft_eq n 53
    have hbits : 2 ^ 52 ≤ n <<< Format.binary64.mantissaBits * 10 ^ e.toNat := by
      rw [hmantissa]
      exact le_trans (by omega) (Nat.le_mul_of_pos_right _ (Nat.pow_pos (by decide)))
    have hvalue : ((n <<< Format.binary64.mantissaBits : ℕ) : ℚ) *
        2 ^ (-(Format.binary64.mantissaBits : ℤ)) * ((10 ^ e.toNat : ℕ) * 2 ^ (0 : ℤ)) =
        n * 10 ^ e := by
      rw [hmantissa, show (Format.binary64.mantissaBits : ℤ) = ((53 : ℕ) : ℤ) from rfl, zpow_neg,
        zpow_natCast, zpow_zero, mul_one, Nat.cast_mul, Nat.cast_pow, Nat.cast_pow, Nat.cast_ofNat,
        Nat.cast_ofNat, mul_inv_cancel_right₀ (by positivity), ← zpow_natCast,
        Int.toNat_of_nonneg hpositive]
    exact hvalue ▸ isNearest_mul _ _ hbits
  · have hvalue : (n * 2 ^ (0 : ℤ) / ((10 ^ (-e).toNat : ℕ) * 2 ^ (0 : ℤ)) : ℚ) = n * 10 ^ e := by
      rw [zpow_zero, mul_one, mul_one]
      push_cast
      rw [div_eq_mul_inv, ← zpow_natCast, ← zpow_neg, show -((-e).toNat : ℤ) = e by omega]
    exact hvalue ▸ isNearest_div _ _

/-- A decimal is read as the number nearest to it. -/
theorem isNearest_ofScientific (hn : 0 < n) (e : ℤ) :
    IsNearest (n * 10 ^ e) (Float.ofScientific n (e < 0) e.natAbs) := by
  unfold Float.ofScientific
  split
  · next hsmall =>
    obtain ⟨m, k, hm, htable, hpower⟩ := exists_of_isPowerOfTen
      (isPowerOfTen_table ⟨e.natAbs, show e.natAbs < 23 by omega⟩)
    have hnumber := unpack_toFloat hn hsmall.1
    have hvalue : ((widened n).mantissa * 2 ^ (widened n).exponent : ℚ) = n := value_widened n
    by_cases he : e < 0
    · have hquotient : (n * 10 ^ e : ℚ) = n / 10 ^ e.natAbs := by
        rw [div_eq_mul_inv, ← zpow_natCast, ← zpow_neg, show -(e.natAbs : ℤ) = e by omega]
      rw [if_pos (decide_eq_true he), hquotient, ← hpower, ← hvalue]
      exact isNearest_float_div hnumber htable (isNearest_div _ _)
    · have hproduct : (n * 10 ^ e : ℚ) = n * 10 ^ e.natAbs := by
        rw [← zpow_natCast, show (e.natAbs : ℤ) = e by omega]
      have hbits : 2 ^ 52 ≤ (widened n).mantissa * m :=
        (widened_bounds hn hsmall.1).1.trans (Nat.le_mul_of_pos_right _ hm)
      rw [if_neg (by simpa using he), hproduct, ← hpower, ← hvalue]
      exact isNearest_float_mul hnumber htable (isNearest_mul _ _ hbits)
  · have hexponent : (if decide (e < 0) = true then Int.negOfNat e.natAbs else .ofNat e.natAbs) =
        e := by
      split
      · next he =>
        have := of_decide_eq_true he
        rw [Int.negOfNat_eq]
        change -(e.natAbs : ℤ) = e
        omega
      · next he =>
        have := mt decide_eq_true he
        change (e.natAbs : ℤ) = e
        omega
    dsimp only
    rw [hexponent]
    exact isNearest_model_ofScientific hn e

theorem lt_pow_digitCount (n : ℕ) : n < 10 ^ digitCount n :=
  (Nat.length_toDigits_le_iff (by decide) Nat.length_toDigits_pos).mp le_rfl

theorem pow_le_of_lt_digitCount {k : ℕ} (hn : 0 < n) (h : k < digitCount n) : 10 ^ k ≤ n := by
  rcases Nat.eq_zero_or_pos k with rfl | hk
  · exact hn
  · exact Nat.le_of_not_lt fun hlt ↦ absurd ((Nat.length_toDigits_le_iff (by decide) hk).mpr hlt)
      (Nat.not_le_of_lt h)

/-- Every decimal has the number nearest to it, of all sizes. -/
theorem isNearest_nearest (n : ℕ) (e : ℤ) : IsNearest (n * 10 ^ e) (nearest n e) := by
  unfold nearest
  split
  · next hzero =>
    rw [hzero, Nat.cast_zero, zero_mul]
    exact isNearest_zero (by decide +kernel) (by positivity)
  · next hne =>
    have hn : 0 < n := Nat.pos_of_ne_zero hne
    dsimp only
    split
    · next hlarge =>
      refine isNearest_infinity (by decide +kernel) ?_
      obtain ⟨k, hk⟩ : ∃ k, digitCount n = k + 1 :=
        Nat.exists_eq_succ_of_ne_zero Nat.length_toDigits_pos.ne'
      calc (2 : ℚ) ^ (1024 : ℤ) ≤ 10 ^ ((k : ℤ) + e) := two_zpow_le_ten_zpow (by omega)
        _ = 10 ^ k * 10 ^ e := by rw [zpow_add₀ (by norm_num), zpow_natCast]
        _ ≤ n * 10 ^ e := by
          gcongr
          exact_mod_cast pow_le_of_lt_digitCount hn (show k < digitCount n by omega)
    split
    · next hsmall =>
      refine isNearest_zero (by decide +kernel) ?_
      calc (n * 10 ^ e : ℚ) ≤ 10 ^ digitCount n * 10 ^ e := by
            gcongr
            exact_mod_cast (lt_pow_digitCount n).le
        _ = 10 ^ ((digitCount n : ℤ) + e) := by rw [zpow_add₀ (by norm_num), zpow_natCast]
        _ ≤ 2 ^ (-1075 : ℤ) := ten_zpow_le_two_zpow (by omega)
    · exact isNearest_ofScientific hn e

/-- A decimal in the interval of a number has the number nearest to it. -/
theorem nearest_eq (hx : x.Canonical)
    (hy : y.toModel.unpack = .finite .positive x.mantissa x.exponent hx.pos)
    (hv : x.Covers (n / 10 ^ p)) : nearest n (-(p : ℤ)) = y := by
  have hvalue : (n * 10 ^ (-(p : ℤ)) : ℚ) = n / 10 ^ p := by
    rw [zpow_neg, zpow_natCast, div_eq_mul_inv]
  exact (isNearest_nearest n _).unique (hvalue ▸ isNearest_of_covers hx hy hv)

theorem ofNat_eq (hx : x.Canonical)
    (hy : y.toModel.unpack = .finite .positive x.mantissa x.exponent hx.pos) (hn : 0 < n)
    (hv : x.Covers n) : Float.ofNat n = y := by
  have hnearest : IsNearest n (Float.ofScientific n false 0) := by
    simpa using isNearest_ofScientific hn 0
  exact hnearest.unique (isNearest_of_covers hx hy hv)

end Decimals

end Peephole.Decimal
