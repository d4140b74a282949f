import Mathlib.Algebra.Order.Field.Power
import Mathlib.Tactic.FieldSimp
import Peephole.Proofs.Magnitudes

/-!
# Rounding to the nearest number

A mantissa with its round bit and its sticky bit keeps track of a rational (`Tracks`): it says which
of the integers below and above is nearer, also after shifts to the right. So rounding it gives the
nearest integer, the even one of two that are equally near (`Tracks.nearestEven`).

The bits of the result are those of the number nearest to the rational (`isNearest_of_tracks`), also
where it is zero or too large. So products and quotients are the numbers nearest to their exact
values (`isNearest_mul`, `isNearest_div`).
-/

set_option autoImplicit false
set_option relaxedAutoImplicit false

namespace Peephole.Decimal

open Float.Model Float.Model.UnpackedFloat Binary64

/-- A power with an integer exponent as a fraction of naturals. -/
theorem zpow_eq_div {b : ℚ} (hb : b ≠ 0) (k : ℤ) : b ^ k = b ^ k.toNat / b ^ (-k).toNat := by
  rw [← zpow_natCast, ← zpow_natCast, ← zpow_sub₀ hb]
  congr 1
  omega

/-! ### Mantissas with two more bits -/

/-- The rational that lies at the mantissa, between it and the middle to the next integer, at the
middle, or between the middle and the next integer. -/
inductive Tracks : ExtendedMantissa → ℚ → Prop where
  | exact (m : ℕ) : Tracks ⟨m, false, false⟩ m
  | below {m : ℕ} {r : ℚ} (hlow : m < r) (hhigh : r < m + 1 / 2) : Tracks ⟨m, false, true⟩ r
  | middle (m : ℕ) : Tracks ⟨m, true, false⟩ (m + 1 / 2)
  | above {m : ℕ} {r : ℚ} (hlow : m + 1 / 2 < r) (hhigh : r < m + 1) : Tracks ⟨m, true, true⟩ r

/-- An integer nearest to a rational, and even if there are two. -/
structure NearestEven (r : ℚ) (n : ℕ) : Prop where
  low : (n : ℚ) - 1 / 2 ≤ r
  high : r ≤ n + 1 / 2
  even : r = n - 1 / 2 ∨ r = n + 1 / 2 → n % 2 = 0

section Tracks

variable {em : ExtendedMantissa} {r : ℚ} {m n : ℕ}

theorem Tracks.bounds (h : Tracks em r) : em.mantissa ≤ r ∧ r < em.mantissa + 1 := by
  cases h with
  | exact m => exact ⟨le_rfl, by simp⟩
  | below hlow hhigh => exact ⟨hlow.le, by dsimp only; linarith⟩
  | middle m => exact ⟨by dsimp only; linarith, by dsimp only; linarith⟩
  | above hlow hhigh => exact ⟨by dsimp only; linarith, hhigh⟩

/-- A shift of an integer keeps its last bit as the round bit. -/
theorem tracks_half (m : ℕ) : Tracks ⟨m / 2, m % 2 != 0, false⟩ (m / 2) := by
  obtain ⟨k, rfl | rfl⟩ := Nat.even_or_odd' m
  · have hk : ((2 * k : ℕ) : ℚ) / 2 = k := by push_cast; ring
    rw [hk, Nat.mul_div_cancel_left k two_pos, Nat.mul_mod_right]
    exact .exact k
  · have hk : ((2 * k + 1 : ℕ) : ℚ) / 2 = k + 1 / 2 := by push_cast; ring
    rw [hk, show (2 * k + 1) / 2 = k by omega, show (2 * k + 1) % 2 = 1 by omega]
    exact .middle k

/-- A shift of anything else sets the sticky bit. -/
theorem tracks_half_of_inexact (hlow : m < r) (hhigh : r < m + 1) :
    Tracks ⟨m / 2, m % 2 != 0, true⟩ (r / 2) := by
  obtain ⟨k, rfl | rfl⟩ := Nat.even_or_odd' m
  · push_cast at hlow hhigh
    rw [Nat.mul_div_cancel_left k two_pos, Nat.mul_mod_right]
    exact .below (by linarith) (by linarith)
  · push_cast at hlow hhigh
    rw [show (2 * k + 1) / 2 = k by omega, show (2 * k + 1) % 2 = 1 by omega]
    exact .above (by linarith) (by linarith)

theorem Tracks.shiftRightOne (h : Tracks em r) : Tracks em.shiftRightOne (r / 2) := by
  cases h with
  | exact m => exact tracks_half m
  | below hlow hhigh => exact tracks_half_of_inexact hlow (by linarith)
  | middle m => exact tracks_half_of_inexact (by linarith) (by linarith)
  | above hlow hhigh => exact tracks_half_of_inexact (by linarith) hhigh

theorem Tracks.shiftRight (h : Tracks em r) (n : ℕ) : Tracks (em >>> n) (r / 2 ^ n) := by
  induction n with
  | zero =>
    rw [pow_zero, div_one]
    exact h
  | succ n ih =>
    rw [pow_succ, ← div_div]
    exact ih.shiftRightOne

theorem Tracks.nearestEven (h : Tracks em r) : NearestEven r em.roundedMantissa := by
  cases h with
  | exact m =>
    change NearestEven _ m
    exact ⟨by linarith, by linarith, by rintro (h | h) <;> linarith⟩
  | @below m _ hlow hhigh =>
    change NearestEven _ m
    exact ⟨by linarith, by linarith, by rintro (h | h) <;> linarith⟩
  | middle m =>
    change NearestEven _ (m + m % 2)
    obtain ⟨k, rfl | rfl⟩ := Nat.even_or_odd' m
    · rw [Nat.mul_mod_right, Nat.add_zero]
      exact ⟨by linarith, le_rfl, fun _ ↦ Nat.mul_mod_right 2 k⟩
    · rw [show 2 * k + 1 + (2 * k + 1) % 2 = 2 * (k + 1) by omega]
      refine ⟨?_, ?_, fun _ ↦ Nat.mul_mod_right 2 (k + 1)⟩ <;> push_cast <;> linarith
  | @above m _ hlow hhigh =>
    change NearestEven _ (m + 1)
    refine ⟨?_, ?_, ?_⟩ <;> push_cast
    · linarith
    · linarith
    · rintro (h | h) <;> linarith

end Tracks

/-! ### Rounding -/

theorem targetExponent_eq (k : ℤ) : Format.binary64.targetExponent k = max (k - 53) (-1074) :=
  rfl

section Round

variable {m n : ℕ} {e t : ℤ} {acc : Accuracy} {v : ℚ} {x : Float}

/-- The first shift goes to the exponent at which there are 53 bits. -/
theorem exists_shift (ht : Format.binary64.targetExponent (totalExponent m e) = t) (he : e ≤ t)
    (h : Tracks (.ofMantissaAndAccuracy m acc) (v / 2 ^ e)) :
    ∃ em, shiftToTargetExponent Format.binary64 m e acc = (em, t) ∧ Tracks em (v / 2 ^ t) := by
  obtain ⟨k, rfl⟩ := Int.le.dest he
  have hvalue : v / 2 ^ e / 2 ^ k = v / 2 ^ (e + (k : ℤ)) := by
    rw [div_div, zpow_add₀ two_ne_zero, zpow_natCast]
  refine ⟨ExtendedMantissa.ofMantissaAndAccuracy m acc >>> k, ?_, hvalue ▸ h.shiftRight k⟩
  rw [shiftToTargetExponent, ht, shiftToExponent, add_sub_cancel_left, Int.toNat_natCast]

theorem log2_lt_of_lt (h : n < 2 ^ 53) : n.log2 < 53 := by
  rcases Nat.eq_zero_or_pos n with rfl | hn
  · decide
  · exact (Nat.log2_lt hn.ne').mpr h

/-- The second shift does nothing if there are no more than 53 bits. -/
theorem shift_of_lt (hn : n < 2 ^ 53) (ht : -1074 ≤ t) :
    shiftToTargetExponent Format.binary64 n t .exact = (⟨n, false, false⟩, t) := by
  have hlog := log2_lt_of_lt hn
  have hzero : (max (totalExponent n t - 53) (-1074) - t).toNat = 0 := by
    unfold totalExponent
    omega
  rw [shiftToTargetExponent, targetExponent_eq, shiftToExponent, hzero, Nat.cast_zero, add_zero]
  rfl

/-- If rounding gave another bit, the second shift drops it. -/
theorem shift_overflow (ht : -1074 ≤ t) :
    shiftToTargetExponent Format.binary64 (2 ^ 53) t .exact = (⟨2 ^ 52, false, false⟩, t + 1) := by
  have hlog : (2 ^ 53 : ℕ).log2 = 53 := Nat.log2_two_pow
  have hone : (max (totalExponent (2 ^ 53) t - 53) (-1074) - t).toNat = 1 := by
    unfold totalExponent
    omega
  rw [shiftToTargetExponent, targetExponent_eq, shiftToExponent, hone, Nat.cast_one]
  rfl

/-- A rational that a mantissa keeps track of lies between the powers of two that the exponent for
53 bits stands for. -/
theorem bounds_of_tracks (ht : Format.binary64.targetExponent (totalExponent m e) = t)
    (h : Tracks (.ofMantissaAndAccuracy m acc) (v / 2 ^ e)) (hm : m = 0 → e ≤ -1074) :
    (-1074 < t → 2 ^ (t + 52) ≤ v) ∧ v < 2 ^ (t + 53) := by
  have hpos : (0 : ℚ) < 2 ^ e := zpow_pos two_pos _
  have hmantissa : (ExtendedMantissa.ofMantissaAndAccuracy m acc).mantissa = m := by
    unfold ExtendedMantissa.ofMantissaAndAccuracy
    split <;> rfl
  obtain ⟨hlow, hhigh⟩ := h.bounds
  rw [hmantissa] at hlow hhigh
  rw [le_div_iff₀ hpos] at hlow
  rw [div_lt_iff₀ hpos] at hhigh
  rw [targetExponent_eq, totalExponent] at ht
  constructor
  · intro hlt
    have hne : m ≠ 0 := fun h0 ↦ by
      have := hm h0
      rw [h0, Nat.log2_zero] at ht
      omega
    have hpow : ((2 ^ m.log2 : ℕ) : ℚ) ≤ m := by exact_mod_cast Nat.log2_self_le hne
    calc (2 : ℚ) ^ (t + 52) = 2 ^ ((m.log2 : ℤ) + e) := by congr 1; omega
      _ = ((2 ^ m.log2 : ℕ) : ℚ) * 2 ^ e := by
        rw [zpow_add₀ two_ne_zero, zpow_natCast]
        push_cast
        rfl
      _ ≤ m * 2 ^ e := by gcongr
      _ ≤ v := hlow
  · have hpow : (m : ℚ) + 1 ≤ ((2 ^ (m.log2 + 1) : ℕ) : ℚ) := by exact_mod_cast Nat.lt_log2_self
    calc v < (m + 1) * 2 ^ e := hhigh
      _ ≤ ((2 ^ (m.log2 + 1) : ℕ) : ℚ) * 2 ^ e := by gcongr
      _ = 2 ^ (((m.log2 + 1 : ℕ) : ℤ) + e) := by
        rw [zpow_add₀ two_ne_zero, zpow_natCast]; push_cast; rfl
      _ ≤ 2 ^ (t + 53) := zpow_le_zpow_right₀ one_le_two (by push_cast; omega)

end Round

/-! ### The bits of a rounded number -/

theorem toNat_packComponents {s : Sign} {e : BitVec 11} {m : BitVec 52} :
    (packComponents Format.binary64 s e m).toNat =
      s.toBitVec.toNat * 2 ^ 63 + e.toNat * 2 ^ 52 + m.toNat := by
  have hlow := Nat.two_pow_add_eq_or_of_lt m.isLt (s.toBitVec.toNat * 2 ^ 11 + e.toNat)
  have hhigh := Nat.two_pow_add_eq_or_of_lt e.isLt s.toBitVec.toNat
  rw [packComponents, BitVec.toNat_append, BitVec.toNat_append, Nat.shiftLeft_eq, Nat.shiftLeft_eq]
  grind

theorem toNat_packedInfinity :
    (packedInfinity Format.binary64 .positive).toNat = infinityBits := by
  decide +kernel

section Bits

variable {m n t : ℕ} {v : ℚ} {x : Float}

/-- The bits of a multiple of a power of two; if it is too large they are those of infinity. -/
theorem toNat_pack_finite (hm : 0 < m) (hlow : t = 0 ∨ 2 ^ 52 ≤ m) (hhigh : m < 2 ^ 53) :
    (UnpackedFloat.pack Format.binary64 (.finite .positive m (t - 1074 : ℤ) hm)).toNat =
      min (t * 2 ^ 52 + m) infinityBits := by
  have hbiased : ((t - 1074 : ℤ) + (Format.binary64.exponentBias : ℤ) +
      (Format.binary64.mantissaBitsWithoutImplicit : ℤ)).toNat = t + 1 := by
    rw [show (Format.binary64.exponentBias : ℤ) = 1023 from rfl,
      show (Format.binary64.mantissaBitsWithoutImplicit : ℤ) = 52 from rfl]
    omega
  have hbits : infinityBits = 2047 * 2 ^ 52 := rfl
  have hpositive : Sign.positive.toBitVec.toNat = 0 := rfl
  unfold UnpackedFloat.pack
  dsimp only
  rw [hbiased]
  split
  · next hlarge =>
    have hlarge : 2 ^ 11 ≤ t + 1 + 1 := hlarge
    rw [toNat_packedInfinity]
    omega
  · next hsmall =>
    have hsmall : ¬ 2 ^ 11 ≤ t + 1 + 1 := hsmall
    split
    · next hlog =>
      have hlog : m.log2 = 52 := Nat.succ.inj hlog
      have hnormal := ((Nat.log2_eq_iff hm.ne').mp hlog).1
      rw [toNat_packComponents, hpositive, BitVec.toNat_ofNat, BitVec.toNat_ofNat]
      change _ + (t + 1) % 2 ^ 11 * 2 ^ 52 + m % 2 ^ 52 = _
      omega
    · next hlog =>
      have hlog : m.log2 ≠ 52 := fun h ↦ hlog (congrArg Nat.succ h)
      have hsubnormal : m < 2 ^ 52 := by
        by_contra hge
        exact hlog ((Nat.log2_eq_iff hm.ne').mpr ⟨Nat.le_of_not_lt hge, hhigh⟩)
      rw [toNat_packComponents, hpositive, BitVec.toNat_ofNat]
      change _ + 0 * 2 ^ 52 + m % 2 ^ 52 = _
      omega

/-- The integers nearest to a rational with at most 53 bits have at most 53 bits too, or are the
next power of two. -/
theorem NearestEven.bounds {u : ℚ} (hu : 0 < u) (hn : NearestEven (v / u) n)
    (hlow : 0 < t → 2 ^ 52 * u ≤ v) (hhigh : v < 2 ^ 53 * u) :
    (t = 0 ∨ 2 ^ 52 ≤ n) ∧ n ≤ 2 ^ 53 := by
  constructor
  · rcases Nat.eq_zero_or_pos t with hzero | hpos
    · exact .inl hzero
    · have hle : (2 : ℚ) ^ 52 ≤ n + 1 / 2 := ((le_div_iff₀ hu).mpr (hlow hpos)).trans hn.high
      have hlt : (2 : ℚ) ^ 52 < n + 1 := by linarith
      exact .inr (Nat.le_of_lt_succ (by exact_mod_cast hlt))
  · have hle : (n : ℚ) - 1 / 2 < 2 ^ 53 := hn.low.trans_lt ((div_lt_iff₀ hu).mpr hhigh)
    have hlt : (n : ℚ) < 2 ^ 53 + 1 := by linarith
    exact Nat.le_of_lt_succ (by exact_mod_cast hlt)

section Middles

variable {u : ℚ} (hu : 2 ^ (t - 1074 : ℤ) = u) (hn : NearestEven (v / u) n)
  (hlow : 0 < t → 2 ^ 52 * u ≤ v) (hhigh : v < 2 ^ 53 * u)

include hu hn hlow hhigh

theorem NearestEven.magnitude_multiple : magnitude (t * 2 ^ 52 + n) = n * u := by
  obtain ⟨hmin, hmax⟩ := hn.bounds (hu ▸ zpow_pos two_pos _) hlow hhigh
  exact hu ▸ magnitude_eq hmin hmax

/-- The middle between the nearest multiple and the number below it is not above the rational. The
number below is the next multiple of the same power of two, unless the rational is not below the
nearest one. -/
theorem NearestEven.middle_below {k : ℕ} (hk : k + 1 = t * 2 ^ 52 + n) :
    magnitude k + n * u ≤ 2 * v ∧ (n % 2 = 1 → magnitude k + n * u ≠ 2 * v) := by
  have hpos : 0 < u := hu ▸ zpow_pos two_pos _
  rcases le_or_gt (n * u) v with hle | hgt
  · have hmono := magnitude_strictMono (show k < t * 2 ^ 52 + n by omega)
    rw [hn.magnitude_multiple hu hlow hhigh] at hmono
    exact ⟨by linarith, fun _ ↦ by linarith⟩
  · obtain ⟨hmin, hmax⟩ := hn.bounds hpos hlow hhigh
    have hnormal : 0 < t → 2 ^ 52 < n := fun ht ↦ by
      have hlt : (2 : ℚ) ^ 52 < n := lt_of_mul_lt_mul_right ((hlow ht).trans_lt hgt) hpos.le
      exact_mod_cast hlt
    obtain ⟨m, rfl⟩ : ∃ m, n = m + 1 := Nat.exists_eq_succ_of_ne_zero (by omega)
    obtain rfl : k = t * 2 ^ 52 + m := by omega
    have hhalf := (le_div_iff₀ hpos).mp hn.low
    rw [magnitude_eq (by omega) (by omega), hu]
    push_cast at hhalf ⊢
    refine ⟨by linarith, fun hodd heq ↦ ?_⟩
    have heven := hn.even (.inl ((div_eq_iff hpos.ne').mpr (by push_cast; linarith)))
    omega

/-- The middle between the nearest multiple and the number above it is not below the rational. -/
theorem NearestEven.middle_above : 2 * v ≤ n * u + magnitude (t * 2 ^ 52 + n + 1) ∧
    (n % 2 = 1 → 2 * v ≠ n * u + magnitude (t * 2 ^ 52 + n + 1)) := by
  have hpos : 0 < u := hu ▸ zpow_pos two_pos _
  rcases le_or_gt v (n * u) with hle | hgt
  · have hmono := magnitude_strictMono (show t * 2 ^ 52 + n < t * 2 ^ 52 + n + 1 by omega)
    rw [hn.magnitude_multiple hu hlow hhigh] at hmono
    exact ⟨by linarith, fun _ ↦ by linarith⟩
  · obtain ⟨hmin, -⟩ := hn.bounds hpos hlow hhigh
    have hlt : n < 2 ^ 53 := by
      have hlt : (n : ℚ) < 2 ^ 53 := lt_of_mul_lt_mul_right (hgt.trans hhigh) hpos.le
      exact_mod_cast hlt
    have hhalf := (div_le_iff₀ hpos).mp hn.high
    rw [Nat.add_assoc, magnitude_eq (by omega) (by omega), hu]
    push_cast
    refine ⟨by linarith, fun hodd heq ↦ ?_⟩
    have heven := hn.even (.inr ((div_eq_iff hpos.ne').mpr (by linarith)))
    omega

/-- The multiple of a power of two that is nearest to a rational with at most 53 bits is the number
nearest to it. -/
theorem isNearest_of_nearestEven (hx : x.toBits.toNat = min (t * 2 ^ 52 + n) infinityBits) :
    IsNearest v x := by
  have hvalue := hn.magnitude_multiple hu hlow hhigh
  have hbelow (k : ℕ) := hn.middle_below (k := k) hu hlow hhigh
  obtain ⟨habove, htie⟩ := hn.middle_above hu hlow hhigh
  rcases le_or_gt (t * 2 ^ 52 + n) infinityBits with hle | hgt
  · rw [min_eq_left hle] at hx
    refine isNearest_of_middles (hx ▸ hle) ?_ ?_ ?_ <;> rw [hx, hvalue]
    · exact fun k hk ↦ (hbelow k hk).1
    · exact fun _ ↦ habove
    · exact fun hodd ↦ ⟨fun k hk ↦ (hbelow k hk).2 (by omega), htie (by omega)⟩
  · -- The exponent is too large, and so is the rational.
    have hbits : infinityBits = 2047 * 2 ^ 52 := rfl
    have hmax := (hn.bounds (hu ▸ zpow_pos two_pos _) hlow hhigh).2
    rw [min_eq_right hgt.le] at hx
    refine isNearest_infinity hx (le_trans ?_ (hlow (by omega)))
    rw [← hu, show (2 : ℚ) ^ 52 = 2 ^ (52 : ℤ) by norm_num, ← zpow_add₀ two_ne_zero]
    exact zpow_le_zpow_right₀ one_le_two (by omega)

end Middles

/-- What a mantissa keeps track of is rounded to the number nearest to it, if there are enough bits
to begin with. -/
theorem isNearest_of_tracks {e : ℤ} {acc : Accuracy}
    (h : Tracks (.ofMantissaAndAccuracy m acc) (v / 2 ^ e)) (hm : m = 0 → e ≤ -1074)
    (he : e ≤ Format.binary64.targetExponent (totalExponent m e)) :
    IsNearest v (.ofModel (.pack (roundWithAccuracy Format.binary64 .positive m e acc))) := by
  obtain ⟨t, ht⟩ : ∃ t, Format.binary64.targetExponent (totalExponent m e) = t := ⟨_, rfl⟩
  have hleast : -1074 ≤ t := ht ▸ le_max_right _ _
  obtain ⟨em, hshift, htracks⟩ := exists_shift ht (ht ▸ he) h
  obtain ⟨hlow, hhigh⟩ := bounds_of_tracks ht h hm
  obtain ⟨k, rfl⟩ : ∃ k : ℕ, t = k - 1074 := ⟨(t + 1074).toNat, by omega⟩
  have hlow' : 0 < k → 2 ^ 52 * 2 ^ (k - 1074 : ℤ) ≤ v := fun hk ↦ by
    have := hlow (by omega)
    rwa [zpow_add₀ two_ne_zero, zpow_ofNat, mul_comm] at this
  have hhigh' : v < 2 ^ 53 * 2 ^ (k - 1074 : ℤ) := by
    rwa [zpow_add₀ two_ne_zero, zpow_ofNat, mul_comm] at hhigh
  have hnearest := htracks.nearestEven
  obtain ⟨hmin, hmax⟩ := hnearest.bounds (zpow_pos two_pos _) hlow' hhigh'
  refine isNearest_of_nearestEven rfl hnearest hlow' hhigh' ?_
  change (UnpackedFloat.pack Format.binary64 (roundWithAccuracy Format.binary64 .positive m e
    acc)).toNat = _
  unfold roundWithAccuracy
  rw [hshift]
  dsimp only
  generalize em.roundedMantissa = n at *
  rcases hmax.lt_or_eq with hlt | rfl
  · rw [shift_of_lt hlt hleast]
    dsimp only
    by_cases hzero : n = 0
    · obtain rfl : k = 0 := hmin.resolve_right (hzero ▸ by decide)
      subst hzero
      decide +kernel
    · rw [dif_neg hzero]
      exact toNat_pack_finite _ hmin hlt
  · -- The next power of two has one bit less at the next exponent.
    have hexponent : (k - 1074 + 1 : ℤ) = (k + 1 : ℕ) - 1074 := by omega
    rw [shift_overflow hleast, hexponent]
    dsimp only
    rw [dif_neg (by decide), toNat_pack_finite _ (.inr le_rfl) (by decide),
      show (k + 1) * 2 ^ 52 + 2 ^ 52 = k * 2 ^ 52 + 2 ^ 53 by omega]

end Bits

/-! ### Products and quotients -/

section Operations

variable {m₁ m₂ den : ℕ} {e₁ e₂ : ℤ}

theorem isNearest_mul (h₁ : 0 < m₁) (h₂ : 0 < m₂) (hbits : 2 ^ 52 ≤ m₁ * m₂) :
    IsNearest (m₁ * 2 ^ e₁ * (m₂ * 2 ^ e₂)) (.ofModel (.pack (UnpackedFloat.mul Format.binary64
      (.finite .positive m₁ e₁ h₁) (.finite .positive m₂ e₂ h₂)))) := by
  have hpos : 0 < m₁ * m₂ := Nat.mul_pos h₁ h₂
  have hvalue : (m₁ * 2 ^ e₁ * (m₂ * 2 ^ e₂) : ℚ) / 2 ^ (e₁ + e₂) = ((m₁ * m₂ : ℕ) : ℚ) := by
    rw [zpow_add₀ two_ne_zero]
    push_cast
    field_simp
  have htracks : Tracks (.ofMantissaAndAccuracy (m₁ * m₂) .exact)
      ((m₁ * 2 ^ e₁ * (m₂ * 2 ^ e₂) : ℚ) / 2 ^ (e₁ + e₂)) := hvalue ▸ .exact (m₁ * m₂)
  have hlog : 52 ≤ (m₁ * m₂).log2 := (Nat.le_log2 hpos.ne').mpr hbits
  refine isNearest_of_tracks htracks (fun h ↦ absurd h hpos.ne') ?_
  rw [targetExponent_eq, totalExponent]
  omega

/-- The accuracy of a fraction says on which side of the middle it lies. -/
theorem tracks_fraction (num : ℕ) (hden : 0 < den) : Tracks
    (.ofMantissaAndAccuracy (num / den) (accuracyOfFraction (num % den) den)) (num / den) := by
  have hpos : (0 : ℚ) < den := by exact_mod_cast hden
  have hlt : num % den < den := Nat.mod_lt num hden
  have hnum : (num : ℚ) = den * (num / den : ℕ) + (num % den : ℕ) := by
    exact_mod_cast (Nat.div_add_mod num den).symm
  have hvalue : (num : ℚ) / den = (num / den : ℕ) + (num % den : ℕ) / den := by
    rw [hnum, add_div, mul_div_cancel_left₀ _ hpos.ne']
  rw [hvalue]
  generalize num / den = q at *
  generalize num % den = r at *
  have hr : (r : ℚ) / den < 1 := (div_lt_one hpos).mpr (by exact_mod_cast hlt)
  unfold accuracyOfFraction
  split
  · next hzero =>
    rw [hzero, Nat.cast_zero, zero_div, add_zero]
    exact .exact q
  · next hzero =>
    have hrpos : (0 : ℚ) < r / den := div_pos (by exact_mod_cast Nat.pos_of_ne_zero hzero) hpos
    cases hcompare : compare (2 * r) den with
    | lt =>
      have hlow : (2 : ℚ) * r < den := by exact_mod_cast Nat.compare_eq_lt.mp hcompare
      have hhalf : (r : ℚ) / den < 1 / 2 := by rw [div_lt_iff₀ hpos]; linarith
      exact .below (by linarith) (by linarith)
    | eq =>
      have heq : (2 : ℚ) * r = den := by exact_mod_cast Nat.compare_eq_eq.mp hcompare
      have hhalf : (r : ℚ) / den = 1 / 2 := by rw [div_eq_iff hpos.ne']; linarith
      rw [hhalf]
      exact .middle q
    | gt =>
      have hhigh : (den : ℚ) < 2 * r := by exact_mod_cast Nat.compare_eq_gt.mp hcompare
      have hhalf : (1 : ℚ) / 2 < r / den := by rw [lt_div_iff₀ hpos]; linarith
      exact .above (by linarith) (by linarith)

/-- A quotient has 53 bits, if the dividend is shifted far enough. -/
theorem le_log2_shiftLeft_div {k : ℕ} (h₁ : 0 < m₁) (h₂ : 0 < m₂)
    (hlogs : m₂.log2 + 53 ≤ m₁.log2 + k) : 52 ≤ (m₁ <<< k / m₂).log2 := by
  have hle : 2 ^ 52 * m₂ ≤ m₁ <<< k := calc
    2 ^ 52 * m₂ ≤ 2 ^ 52 * 2 ^ (m₂.log2 + 1) := Nat.mul_le_mul_left _ Nat.lt_log2_self.le
    _ = 2 ^ (m₂.log2 + 53) := by rw [← pow_add]; congr 1; omega
    _ ≤ 2 ^ (m₁.log2 + k) := Nat.pow_le_pow_right two_pos hlogs
    _ ≤ m₁ * 2 ^ k := by rw [pow_add]; exact Nat.mul_le_mul_right _ (Nat.log2_self_le h₁.ne')
    _ = m₁ <<< k := (Nat.shiftLeft_eq _ _).symm
  have hquotient : 2 ^ 52 ≤ m₁ <<< k / m₂ := (Nat.le_div_iff_mul_le h₂).mpr hle
  exact (Nat.le_log2 (by omega)).mpr hquotient

theorem isNearest_div (h₁ : 0 < m₁) (h₂ : 0 < m₂) :
    IsNearest (m₁ * 2 ^ e₁ / (m₂ * 2 ^ e₂)) (.ofModel (.pack (UnpackedFloat.div Format.binary64
      (.finite .positive m₁ e₁ h₁) (.finite .positive m₂ e₂ h₂)))) := by
  -- The exponent that the quotient is computed at, and the shift of the dividend for it.
  obtain ⟨t, ht⟩ : ∃ t, min (e₁ - e₂) (Format.binary64.targetExponent
      (totalExponent m₁ e₁ - totalExponent m₂ e₂)) = t := ⟨_, rfl⟩
  obtain ⟨k, hk⟩ := Int.le.dest (show t ≤ e₁ - e₂ from ht ▸ min_le_left _ _)
  have hshift : (e₁ - e₂ - t).toNat = k := by omega
  have hpos₂ : (0 : ℚ) < m₂ := by exact_mod_cast h₂
  have hvalue : (m₁ * 2 ^ e₁ / (m₂ * 2 ^ e₂) : ℚ) / 2 ^ t = ((m₁ <<< k : ℕ) : ℚ) / m₂ := by
    rw [Nat.shiftLeft_eq, show e₁ = e₂ + t + k by omega, zpow_add₀ two_ne_zero,
      zpow_add₀ two_ne_zero, zpow_natCast]
    push_cast
    field_simp
  have htracks := tracks_fraction (m₁ <<< k) h₂
  rw [← hvalue] at htracks
  -- If the exponent is not the least one, the quotient has 53 bits.
  have hbits (hlt : -1074 < t) : 52 ≤ (m₁ <<< k / m₂).log2 := by
    refine le_log2_shiftLeft_div h₁ h₂ ?_
    rw [targetExponent_eq, totalExponent, totalExponent] at ht
    omega
  have hdiv : UnpackedFloat.div Format.binary64 (.finite .positive m₁ e₁ h₁)
      (.finite .positive m₂ e₂ h₂) = roundWithAccuracy Format.binary64 .positive
        (m₁ <<< k / m₂) t (accuracyOfFraction (m₁ <<< k % m₂) m₂) := by
    rw [← hshift, ← ht]
    rfl
  rw [hdiv]
  refine isNearest_of_tracks htracks (fun hzero ↦ ?_) ?_
  · by_contra hlt
    have := hbits (by omega)
    rw [hzero, Nat.log2_zero] at this
    omega
  · rw [targetExponent_eq, totalExponent]
    omega

end Operations

end Peephole.Decimal
