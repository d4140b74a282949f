import Mathlib
import Peephole.Proofs.Numerals
import Peephole.Proofs.Rounding

/-!
# Binary64 numbers

The bits of a number are a sign, a biased exponent and a fraction. `unpackFields` says which number
they stand for; a change of the sign bit changes its sign and nothing else. So a number is
determined by its magnitude and by whether its text begins with a minus (`signed_abs`).

`Binary.Covers` is the interval of the rationals that are rounded to a magnitude
(`isNearest_of_covers`): its ends are the middles to the neighbours of the magnitude.

The lemmas on packed numbers are in no module of Mathlib, so it is imported whole.
-/

set_option autoImplicit false
set_option relaxedAutoImplicit false

namespace Peephole

open Float.Model Float.Model.UnpackedFloat

namespace Decimal

/-! ### Intervals -/

/-- A positive magnitude with the mantissa and the exponent that binary64 gives it. -/
structure Binary.Canonical (x : Binary) : Prop where
  pos : 0 < x.mantissa
  lt : x.mantissa < 2 ^ 53
  least : -1074 ≤ x.exponent
  largest : x.exponent ≤ 971
  normal : -1074 < x.exponent → 2 ^ 52 ≤ x.mantissa
  narrow : x.narrowBelow = true ↔ x.mantissa = 2 ^ 52 ∧ -1074 < x.exponent

/-- The rational that a magnitude is. -/
def Binary.value (x : Binary) : ℚ :=
  x.mantissa * 2 ^ x.exponent

/-- How far below a magnitude its interval begins, in units of its last place. -/
def Binary.below (x : Binary) : ℚ :=
  if x.narrowBelow then 1 / 4 else 1 / 2

/-- The rationals that round to a magnitude. The ends of the interval do if the mantissa is even. -/
structure Binary.Covers (x : Binary) (v : ℚ) : Prop where
  low : (x.mantissa - x.below) * 2 ^ x.exponent ≤ v
  high : v ≤ (x.mantissa + 1 / 2) * 2 ^ x.exponent
  even : v = (x.mantissa - x.below) * 2 ^ x.exponent ∨ v = (x.mantissa + 1 / 2) * 2 ^ x.exponent →
    x.mantissa % 2 = 0

namespace Binary

variable {x : Binary} {v : ℚ} {n : ℕ}

theorem below_le (x : Binary) : x.below ≤ 1 / 2 := by
  unfold below
  split_ifs <;> norm_num

theorem below_pos (x : Binary) : 0 < x.below := by
  unfold below
  split_ifs <;> norm_num

theorem covers_value (x : Binary) : x.Covers x.value := by
  have hpos : (0 : ℚ) < 2 ^ x.exponent := zpow_pos two_pos _
  have hbelow := x.below_pos
  unfold value
  refine ⟨by gcongr; linarith, by gcongr; linarith, ?_⟩
  rintro (h | h)
  · have := mul_right_cancel₀ hpos.ne' h
    linarith
  · have := mul_right_cancel₀ hpos.ne' h
    linarith

/-- The interval of a magnitude does not reach the multiples of its last place below it. -/
theorem Covers.mul_lt (hv : x.Covers v) (hn : n < x.mantissa) : n * 2 ^ x.exponent < v := by
  have hmantissa : (n : ℚ) + 1 ≤ x.mantissa := by exact_mod_cast hn
  have hbelow := x.below_le
  calc n * (2 : ℚ) ^ x.exponent < (x.mantissa - x.below) * 2 ^ x.exponent := by gcongr; linarith
    _ ≤ v := hv.low

theorem Covers.lt_mul (hv : x.Covers v) (hn : x.mantissa < n) : v < n * 2 ^ x.exponent := by
  have hmantissa : (x.mantissa : ℚ) + 1 ≤ n := by exact_mod_cast hn
  calc v ≤ (x.mantissa + 1 / 2) * 2 ^ x.exponent := hv.high
    _ < n * 2 ^ x.exponent := by gcongr; linarith

end Binary

end Decimal

namespace Binary64

open Decimal

/-! ### Fields -/

/-- The number that a sign, a biased exponent and a fraction stand for. -/
def unpackFields (s : Sign) (e : BitVec 11) (m : BitVec 52) : UnpackedFloat :=
  if e = -1#11 then
    if m = 0#52 then .infinity s else .notANumber
  else if e = 0#11 then
    if h : m = 0#52 then .zero s
    else .finite s m.toNat (-1074)
        (Nat.pos_of_ne_zero fun h0 ↦ h (BitVec.eq_of_toNat_eq h0))
  else .finite s (2 ^ 52 + m.toNat) ((e.toNat : Int) - 1075) (by omega)

variable {s : Sign} {e : BitVec 11} {m : BitVec 52} {x y : Float} {u : UnpackedFloat}

theorem toNat_one_append (m : BitVec 52) : (1#1 ++ m).toNat = 2 ^ 52 + m.toNat := by
  have hor := Nat.two_pow_add_eq_or_of_lt m.isLt 1
  rw [Nat.mul_one] at hor
  rw [hor, BitVec.toNat_append]
  rfl

theorem unpack_packComponents :
    unpack Format.binary64 (packComponents Format.binary64 s e m) = unpackFields s e m := by
  unfold UnpackedFloat.unpack unpackFields
  simp only [unpackMantissa_packComponents, unpackExponent_packComponents,
    unpackSign_packComponents, Sign.ofBitVec_toBitVec]
  by_cases hones : e = -1#11
  · rw [if_pos hones, if_pos hones]
  rw [if_neg hones, if_neg hones]
  by_cases hzero : e = 0#11
  · rw [if_pos hzero, if_pos hzero]
    by_cases hm : m = 0#52
    · rw [dif_pos hm, dif_pos hm]
    · rw [dif_neg hm, dif_neg hm, UnpackedFloat.finite.injEq, hzero]
      exact ⟨rfl, rfl, by decide⟩
  · rw [if_neg hzero, if_neg hzero, UnpackedFloat.finite.injEq]
    exact ⟨rfl, toNat_one_append m, by simp [Format.exponentBias]⟩

theorem exists_fields (x : Float) : ∃ (s : Sign) (e : BitVec 11) (m : BitVec 52),
    x.toModel.toBits.toBitVec = packComponents Format.binary64 s e m :=
  ⟨_, _, _, (@packComponents_unpackSign_unpackExponent_unpackMantissa Format.binary64 _).symm⟩

theorem unpack_eq_unpackFields
    (h : x.toModel.toBits.toBitVec = packComponents Format.binary64 s e m) :
    x.toModel.unpack = unpackFields s e m := by
  rw [Float.Model.unpack, h, unpack_packComponents]

theorem eq_of_unpack (h : x.toModel.unpack = y.toModel.unpack) : x = y := by
  have hbits := (unpack_inj_of_valid x.toModel.valid y.toModel.valid).mp h
  exact Float.toBits_inj.mp (UInt64.toBitVec_inj.mp hbits)

/-! ### Representable numbers -/

/-- A number that has bits. -/
def Representable (u : UnpackedFloat) : Prop :=
  ∃ x : Float, x.toModel.unpack = u

theorem pack_unpack_toModel (x : Float) : Float.Model.pack x.toModel.unpack = x.toModel := by
  obtain ⟨⟨bits, hvalid⟩⟩ := x
  have hbits : UInt64.ofBitVec (UnpackedFloat.pack Format.binary64
      (UnpackedFloat.unpack Format.binary64 bits.toBitVec)) = bits := by
    rw [pack_unpack_of_valid hvalid]
  exact Float.Model.mk.injEq _ _ _ _ ▸ hbits

theorem Representable.unpack_pack (h : Representable u) : (Float.Model.pack u).unpack = u := by
  obtain ⟨x, rfl⟩ := h
  rw [pack_unpack_toModel]

/-- The bits of a number that is not not-a-number can have any sign. -/
theorem representable_unpackFields (h : unpackFields s e m ≠ .notANumber) (s' : Sign) :
    Representable (unpackFields s' e m) := by
  have hvalid : Format.binary64.Valid (packComponents Format.binary64 s' e m) := by
    refine ⟨fun he hm ↦ absurd ?_ h⟩
    rw [unpackExponent_packComponents] at he
    rw [unpackMantissa_packComponents] at hm
    rw [unpackFields, if_pos he, if_neg hm]
  exact ⟨.ofModel ⟨⟨packComponents Format.binary64 s' e m⟩, hvalid⟩, unpack_packComponents⟩

theorem neg_unpackFields : (unpackFields s e m).neg = unpackFields (-s) e m := by
  unfold unpackFields
  split_ifs <;> rfl

theorem abs_unpackFields : (unpackFields s e m).abs = unpackFields .positive e m := by
  unfold unpackFields
  split_ifs <;> rfl

theorem unpack_neg (x : Float) : (-x).toModel.unpack = x.toModel.unpack.neg := by
  have hneg : Representable x.toModel.unpack.neg := by
    by_cases hx : x.toModel.unpack = .notANumber
    · exact ⟨x, by rw [hx]; rfl⟩
    · obtain ⟨s, e, m, hfields⟩ := exists_fields x
      rw [unpack_eq_unpackFields hfields] at hx ⊢
      exact neg_unpackFields ▸ representable_unpackFields hx _
  exact hneg.unpack_pack

theorem unpack_abs (x : Float) : x.abs.toModel.unpack = x.toModel.unpack.abs := by
  have habs : Representable x.toModel.unpack.abs := by
    by_cases hx : x.toModel.unpack = .notANumber
    · exact ⟨x, by rw [hx]; rfl⟩
    · obtain ⟨s, e, m, hfields⟩ := exists_fields x
      rw [unpack_eq_unpackFields hfields] at hx ⊢
      exact abs_unpackFields ▸ representable_unpackFields hx _
  exact habs.unpack_pack

/-! ### Signs -/

theorem toNat_toBits (hfields : x.toModel.toBits.toBitVec = packComponents Format.binary64 s e m) :
    x.toBits.toNat = s.toBitVec.toNat * 2 ^ 63 + e.toNat * 2 ^ 52 + m.toNat :=
  (congrArg BitVec.toNat hfields).trans toNat_packComponents

theorem isNegative_iff (hfields : x.toModel.toBits.toBitVec = packComponents Format.binary64 s e m)
    (hx : x.isNaN = false) : isNegative x = true ↔ s = .negative := by
  have hbits := toNat_toBits hfields
  have he := e.isLt
  have hm := m.isLt
  rw [isNegative, hx, hbits, Nat.shiftRight_eq_div_pow]
  cases s with
  | negative => simp [Sign.toBitVec]; omega
  | positive => simp [Sign.toBitVec]; omega

/-- A number is its magnitude with its sign. -/
theorem signed_abs (hx : x.isNaN = false) : (if isNegative x then -x.abs else x.abs) = x := by
  obtain ⟨s, e, m, hfields⟩ := exists_fields x
  have hunpack := unpack_eq_unpackFields hfields
  have habs : x.abs.toModel.unpack = unpackFields .positive e m := by
    rw [unpack_abs, hunpack, abs_unpackFields]
  have hneg : (-x.abs).toModel.unpack = unpackFields .negative e m := by
    rw [unpack_neg, habs, neg_unpackFields]
    rfl
  apply eq_of_unpack
  rw [hunpack]
  split
  · next h => rw [hneg, (isNegative_iff hfields hx).mp h]
  · next h =>
    cases s with
    | negative => exact absurd ((isNegative_iff hfields hx).mpr rfl) h
    | positive => exact habs

/-! ### Magnitudes -/

/-- The magnitude in the bits of a number. -/
theorem ofFloat_eq (hfields : x.toModel.toBits.toBitVec = packComponents Format.binary64 s e m) :
    Binary.ofFloat x = if e.toNat = 0 then ⟨m.toNat, -1074, false⟩
      else ⟨2 ^ 52 + m.toNat, (e.toNat : ℤ) - 1075, m.toNat = 0 && e.toNat > 1⟩ := by
  have hbits := toNat_toBits hfields
  have he := e.isLt
  have hm := m.isLt
  have hsign := s.toBitVec.isLt
  have hexponent : x.toBits.toNat >>> 52 % (1 <<< 11) = e.toNat := by
    rw [hbits, Nat.shiftRight_eq_div_pow, Nat.one_shiftLeft]
    omega
  have hfraction : x.toBits.toNat % (1 <<< 52) = m.toNat := by
    rw [hbits, Nat.one_shiftLeft]
    omega
  unfold Binary.ofFloat
  dsimp only
  rw [hexponent, hfraction]
  rfl

theorem canonical_ofFloat
    (hfields : x.toModel.toBits.toBitVec = packComponents Format.binary64 s e m)
    (he : e.toNat < 2047) (hm : e.toNat = 0 → m.toNat ≠ 0) : (Binary.ofFloat x).Canonical := by
  have hlt := m.isLt
  rw [ofFloat_eq hfields]
  split
  · next hzero =>
    have hpos := hm hzero
    refine ⟨?_, ?_, ?_, ?_, ?_, ?_⟩ <;> dsimp only
    case refine_6 => simp
    all_goals omega
  · next hne =>
    refine ⟨?_, ?_, ?_, ?_, ?_, ?_⟩ <;> dsimp only
    case refine_6 =>
      rw [Bool.and_eq_true, decide_eq_true_eq, decide_eq_true_eq]
      omega
    all_goals omega

/-- A finite number is zero or a canonical magnitude with a sign. -/
theorem magnitude_cases (hnan : x.isNaN = false) (hinf : x.isInf = false) :
    (∃ s, x.toModel.unpack = .zero s ∧ Binary.ofFloat x = ⟨0, -1074, false⟩) ∨
      ∃ (s : Sign) (hx : (Binary.ofFloat x).Canonical), x.toModel.unpack =
        .finite s (Binary.ofFloat x).mantissa (Binary.ofFloat x).exponent hx.pos := by
  obtain ⟨s, e, m, hfields⟩ := exists_fields x
  have hunpack := unpack_eq_unpackFields hfields
  have hfinite : e ≠ -1#11 := by
    rintro rfl
    rw [unpackFields, if_pos rfl] at hunpack
    have hnan' : x.toModel.unpack.isNaN = false := hnan
    have hinf' : x.toModel.unpack.isInf = false := hinf
    rw [hunpack] at hnan' hinf'
    split at hnan' <;> simp_all [UnpackedFloat.isNaN, UnpackedFloat.isInf]
  have he : e.toNat < 2047 := by
    have hlt := e.isLt
    have hne : e.toNat ≠ 2047 := fun h ↦ hfinite (BitVec.eq_of_toNat_eq h)
    omega
  rw [unpackFields, if_neg hfinite] at hunpack
  by_cases hzero : e = 0#11
  · have hzero' : e.toNat = 0 := congrArg BitVec.toNat hzero
    rw [if_pos hzero] at hunpack
    by_cases hm : m = 0#52
    · rw [dif_pos hm] at hunpack
      refine .inl ⟨s, hunpack, ?_⟩
      rw [ofFloat_eq hfields, if_pos hzero', hm]
      rfl
    · rw [dif_neg hm] at hunpack
      have hm' : m.toNat ≠ 0 := fun h ↦ hm (BitVec.eq_of_toNat_eq h)
      refine .inr ⟨s, canonical_ofFloat hfields he fun _ ↦ hm', hunpack.trans ?_⟩
      simp only [ofFloat_eq hfields, if_pos hzero']
  · have hzero' : e.toNat ≠ 0 := fun h ↦ hzero (BitVec.eq_of_toNat_eq h)
    rw [if_neg hzero] at hunpack
    refine .inr ⟨s, canonical_ofFloat hfields he fun h ↦ absurd h hzero', hunpack.trans ?_⟩
    simp only [ofFloat_eq hfields, if_neg hzero']

theorem exists_toNat_eq {w n : ℕ} (h : n < 2 ^ w) : ∃ b : BitVec w, b.toNat = n :=
  ⟨BitVec.ofNatLT n h, BitVec.toNat_ofNatLT n h⟩

theorem representable_finite {n : ℕ} {k : ℤ} {hn : 0 < n}
    (h : unpackFields s e m = .finite s n k hn) : Representable (.finite s n k hn) := by
  have hnan : unpackFields s e m ≠ .notANumber := by
    rw [h]
    exact nofun
  exact h ▸ representable_unpackFields hnan s

/-- Every canonical magnitude has bits. -/
theorem representable_of_canonical {b : Binary} (hb : b.Canonical) (s : Sign) :
    Representable (.finite s b.mantissa b.exponent hb.pos) := by
  obtain ⟨mantissa, exponent, narrow⟩ := b
  obtain ⟨hpos, hlt, hleast, hlargest, hnormal, -⟩ := hb
  dsimp only at hpos hlt hleast hlargest hnormal ⊢
  have hones : (-1#11).toNat = 2047 := by decide
  by_cases hbits : 2 ^ 52 ≤ mantissa
  · obtain ⟨e, he⟩ := exists_toNat_eq (show (exponent + 1075).toNat < 2 ^ 11 by omega)
    obtain ⟨m, hm⟩ := exists_toNat_eq (show mantissa - 2 ^ 52 < 2 ^ 52 by omega)
    have hfields : unpackFields s e m = .finite s mantissa exponent hpos := by
      have hfinite : e ≠ -1#11 := by
        rintro rfl
        omega
      have hzero : e ≠ 0#11 := by
        rintro rfl
        rw [BitVec.toNat_zero] at he
        omega
      rw [unpackFields, if_neg hfinite, if_neg hzero, UnpackedFloat.finite.injEq]
      exact ⟨rfl, by omega, by omega⟩
    exact representable_finite hfields
  · obtain ⟨m, hm⟩ := exists_toNat_eq (Nat.lt_of_not_le hbits)
    have hfields : unpackFields s 0#11 m = .finite s mantissa exponent hpos := by
      have hzero : m ≠ 0#52 := by
        rintro rfl
        rw [BitVec.toNat_zero] at hm
        omega
      rw [unpackFields, if_neg (by decide), if_pos rfl, dif_neg hzero, UnpackedFloat.finite.injEq]
      exact ⟨rfl, hm, by omega⟩
    exact representable_finite hfields

/-! ### Rounding to a magnitude -/

section Covers

variable {b : Binary} {v : ℚ}

/-- The bits of a canonical magnitude. -/
theorem toNat_toBits_of_canonical (hb : b.Canonical)
    (hx : x.toModel.unpack = .finite .positive b.mantissa b.exponent hb.pos) :
    ∃ t : ℕ, b.exponent = t - 1074 ∧ x.toBits.toNat = t * 2 ^ 52 + b.mantissa ∧
      x.toBits.toNat < infinityBits := by
  have hleast := hb.least
  have hlargest := hb.largest
  have hlt := hb.lt
  have hnormal := hb.normal
  obtain ⟨t, ht⟩ : ∃ t : ℕ, b.exponent = t - 1074 := ⟨(b.exponent + 1074).toNat, by omega⟩
  have hpacked : (UnpackedFloat.pack Format.binary64 x.toModel.unpack).toNat = x.toBits.toNat :=
    congrArg (fun model ↦ model.toBits.toNat) (pack_unpack_toModel x)
  have hbits : infinityBits = 2047 * 2 ^ 52 := rfl
  have hfinite : x.toBits.toNat = min (t * 2 ^ 52 + b.mantissa) infinityBits := by
    rw [← hpacked, hx, ← toNat_pack_finite hb.pos (by omega) hlt]
    simp only [ht]
  exact ⟨t, ht, by omega, by omega⟩

section Neighbours

variable (hb : b.Canonical) {t : ℕ} (ht : b.exponent = t - 1074)

include hb ht

theorem magnitude_of_canonical :
    magnitude (t * 2 ^ 52 + b.mantissa) = b.mantissa * 2 ^ b.exponent := by
  have hnormal : t = 0 ∨ 2 ^ 52 ≤ b.mantissa := by
    have := hb.normal
    omega
  rw [magnitude_eq hnormal hb.lt.le, ht]

/-- The interval of a magnitude begins in the middle to the number below it. -/
theorem middle_below_of_canonical {k : ℕ} (hk : k + 1 = t * 2 ^ 52 + b.mantissa) :
    magnitude k + b.mantissa * 2 ^ b.exponent =
      2 * ((b.mantissa - b.below) * 2 ^ b.exponent) := by
  have hlt := hb.lt
  have hpos := hb.pos
  rw [Binary.below, ht]
  by_cases hnarrow : b.narrowBelow = true
  · -- Below a power of two the numbers are half as far apart.
    obtain ⟨hmantissa, hexponent⟩ := hb.narrow.mp hnarrow
    obtain ⟨t, rfl⟩ : ∃ s, t = s + 1 := Nat.exists_eq_succ_of_ne_zero (by omega)
    obtain rfl : k = t * 2 ^ 52 + (2 ^ 53 - 1) := by omega
    rw [if_pos hnarrow, magnitude_eq (by omega) (by omega), hmantissa,
      show ((t + 1 : ℕ) - 1074 : ℤ) = t - 1074 + 1 by omega, zpow_add_one₀ two_ne_zero]
    push_cast
    ring
  · have hwide : t = 0 ∨ 2 ^ 52 < b.mantissa := by
      have := hb.narrow.not.mp hnarrow
      have := hb.normal
      omega
    obtain ⟨m, hm⟩ : ∃ m, b.mantissa = m + 1 := Nat.exists_eq_succ_of_ne_zero (by omega)
    obtain rfl : k = t * 2 ^ 52 + m := by omega
    rw [if_neg hnarrow, magnitude_eq (by omega) (by omega), hm]
    push_cast
    ring

/-- The interval of a magnitude ends in the middle to the number above it. -/
theorem middle_above_of_canonical :
    b.mantissa * 2 ^ b.exponent + magnitude (t * 2 ^ 52 + b.mantissa + 1) =
      2 * ((b.mantissa + 1 / 2) * 2 ^ b.exponent) := by
  have hlt := hb.lt
  have hnormal := hb.normal
  rw [Nat.add_assoc, magnitude_eq (by omega) (by omega), ht]
  push_cast
  ring

end Neighbours

/-- What lies in the interval of a magnitude is rounded to it. -/
theorem isNearest_of_covers (hb : b.Canonical)
    (hx : x.toModel.unpack = .finite .positive b.mantissa b.exponent hb.pos) (hv : b.Covers v) :
    IsNearest v x := by
  obtain ⟨t, ht, hbits, hfinite⟩ := toNat_toBits_of_canonical hb hx
  have hvalue := magnitude_of_canonical hb ht
  have habove := middle_above_of_canonical hb ht
  refine isNearest_of_middles hfinite.le (fun k hk ↦ ?_) (fun _ ↦ ?_)
    fun hodd ↦ ⟨fun k hk heq ↦ ?_, fun heq ↦ ?_⟩
  all_goals rw [hbits] at *
  · rw [hvalue, middle_below_of_canonical hb ht hk]
    linarith [hv.low]
  · rw [hvalue, habove]
    linarith [hv.high]
  · rw [hvalue, middle_below_of_canonical hb ht hk] at heq
    have := hv.even (.inl (by linarith))
    omega
  · rw [hvalue, habove] at heq
    have := hv.even (.inr (by linarith))
    omega

end Covers

end Binary64

end Peephole
