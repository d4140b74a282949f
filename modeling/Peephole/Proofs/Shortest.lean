import Peephole.Proofs.Binary64

/-!
# The digits of a number

The digits that are chosen for a magnitude stand for a decimal in its interval, whether they are
found on one of the grids or are the exact ones (`Binary.covers_numeral`). The numeral in which they
are written has the same value.

A magnitude of at least `2 ^ 64` is written without a point (`Binary.fraction_eq_none`), and its
digits are too large for an integer literal (`Binary.lt_digitsValue`).
-/

set_option autoImplicit false
set_option relaxedAutoImplicit false

namespace Peephole.Decimal

open Source.Lexer

/-! ### Grids -/

namespace Binary

variable {x : Binary} {k : ℤ} {c : ℕ} {tie : Tie}

/-- The unit in which grid steps and binary places are compared. -/
theorem step_eq (x : Binary) (k : ℤ) :
    (x.step k : ℚ) = 10 ^ k * (2 ^ (2 - x.exponent) * x.quarter k) := by
  have hten := zpow_eq_div (show (10 : ℚ) ≠ 0 by norm_num) k
  have htwo := zpow_eq_div (two_ne_zero : (2 : ℚ) ≠ 0) (2 - x.exponent)
  rw [neg_sub] at htwo
  unfold step quarter
  rw [hten, htwo]
  simp only [Nat.pow_eq]
  push_cast
  field_simp

theorem quarter_pos (x : Binary) (k : ℤ) : 0 < x.quarter k :=
  Nat.mul_pos (Nat.pow_pos (by decide)) (Nat.pow_pos (by decide))

/-- The comparisons of `readsBack`, with a strict one at each end for an odd mantissa. -/
theorem readsBack_bounds (h : x.readsBack k c = true) :
    ∃ low high : ℕ, low = (if x.narrowBelow then 4 * x.mantissa - 1 else 4 * x.mantissa - 2) *
        x.quarter k ∧ high = (4 * x.mantissa + 2) * x.quarter k ∧
      low ≤ c * x.step k ∧ c * x.step k ≤ high ∧
      (c * x.step k = low ∨ c * x.step k = high → x.mantissa % 2 = 0) := by
  refine ⟨_, _, rfl, rfl, ?_⟩
  unfold readsBack at h
  dsimp only at h
  split at h
  · next heven =>
    rw [Bool.and_eq_true, decide_eq_true_eq, decide_eq_true_eq] at h
    exact ⟨h.1, h.2, fun _ ↦ heven⟩
  · rw [Bool.and_eq_true, decide_eq_true_eq, decide_eq_true_eq] at h
    exact ⟨h.1.le, h.2.le, by omega⟩

theorem covers_of_readsBack (hx : x.Canonical) (h : x.readsBack k c = true) :
    x.Covers (c * 10 ^ k) := by
  obtain ⟨low, high, rfl, rfl, hlow, hhigh, heven⟩ := readsBack_bounds h
  have hquarter : (0 : ℚ) < x.quarter k := by exact_mod_cast x.quarter_pos k
  -- The point and the two ends in the common unit.
  have hunit : (0 : ℚ) < 2 ^ (2 - x.exponent) * x.quarter k := by positivity
  have hpoint : (c * 10 ^ k : ℚ) * (2 ^ (2 - x.exponent) * x.quarter k) = (c * x.step k : ℕ) := by
    push_cast
    rw [step_eq, mul_assoc]
  have hfour (r : ℚ) : r * 2 ^ x.exponent * (2 ^ (2 - x.exponent) * x.quarter k) =
      4 * r * x.quarter k := by
    rw [zpow_sub₀ two_ne_zero]
    field_simp
    norm_num
  have hend : ((x.mantissa - x.below) * 2 ^ x.exponent : ℚ) * (2 ^ (2 - x.exponent) * x.quarter k) =
      ((if x.narrowBelow then 4 * x.mantissa - 1 else 4 * x.mantissa - 2) * x.quarter k : ℕ) := by
    have hpos := hx.pos
    rw [hfour, below]
    split_ifs
    · push_cast [show 1 ≤ 4 * x.mantissa by omega]
      ring
    · push_cast [show 2 ≤ 4 * x.mantissa by omega]
      ring
  have hend' : ((x.mantissa + 1 / 2) * 2 ^ x.exponent : ℚ) *
      (2 ^ (2 - x.exponent) * x.quarter k) = ((4 * x.mantissa + 2) * x.quarter k : ℕ) := by
    rw [hfour]
    push_cast
    ring
  refine ⟨le_of_mul_le_mul_right ?_ hunit, le_of_mul_le_mul_right ?_ hunit, ?_⟩
  · rw [hend, hpoint]
    exact_mod_cast hlow
  · rw [hend', hpoint]
    exact_mod_cast hhigh
  · rintro (hv | hv)
    · rw [hv, hend] at hpoint
      exact heven (.inl (by exact_mod_cast hpoint.symm))
    · rw [hv, hend'] at hpoint
      exact heven (.inr (by exact_mod_cast hpoint.symm))

theorem readsBack_of_onGrid (h : x.onGrid tie k = some c) : x.readsBack k c = true := by
  unfold onGrid at h
  dsimp only at h
  split at h
  · cases h
  · next hbelow _ => exact Option.some.inj h ▸ hbelow
  · next _ habove => exact Option.some.inj h ▸ habove
  · next hbelow habove =>
    split at h
    · exact Option.some.inj h ▸ hbelow
    · exact Option.some.inj h ▸ habove
    · rw [← Option.some.inj h]
      split
      · exact hbelow
      · exact habove
    · exact Option.some.inj h ▸ habove

theorem value_exact (x : Binary) : (x.exact.1 * 10 ^ x.exact.2 : ℚ) = x.value := by
  unfold exact value
  split
  · next hexponent =>
    obtain ⟨n, hn⟩ := Int.eq_ofNat_of_zero_le hexponent
    rw [hn]
    simp
  · next hexponent =>
    obtain ⟨n, hn⟩ : ∃ n : ℕ, x.exponent = -n := ⟨(-x.exponent).toNat, by omega⟩
    rw [hn, neg_neg, Int.toNat_natCast, zpow_neg, zpow_neg, zpow_natCast, zpow_natCast,
      show (10 : ℚ) = 2 * 5 by norm_num, mul_pow, Nat.pow_eq]
    push_cast
    field_simp

/-- The first digit of a magnitude of at least `2 ^ 64` is no later than the seventeenth one before
the point. -/
theorem leading_ge (hx : x.Canonical) (h : 12 ≤ x.exponent) : 16 ≤ x.leading := by
  have hmantissa := hx.normal (by omega)
  have hdenominator : Nat.pow 2 (-x.exponent).toNat = 1 := by
    rw [show (-x.exponent).toNat = 0 by omega]
  have hnumerator : 10 ^ 16 ≤ x.mantissa * Nat.pow 2 x.exponent.toNat := calc
    10 ^ 16 ≤ 2 ^ 52 * 2 ^ 12 := by norm_num
    _ ≤ x.mantissa * 2 ^ x.exponent.toNat :=
      Nat.mul_le_mul hmantissa (Nat.pow_le_pow_right two_pos (by omega))
  have hcount : ¬ digitCount (x.mantissa * Nat.pow 2 x.exponent.toNat) ≤ 16 := fun hle ↦
    absurd ((Nat.length_toDigits_le_iff (by decide) (by decide)).mp hle)
      (Nat.not_lt_of_le hnumerator)
  unfold leading
  dsimp only
  rw [hdenominator, if_pos (by omega), Nat.div_one]
  omega

/-- The digits of a magnitude stand for a decimal in its interval, which is an integer if the
magnitude is large. -/
theorem exists_shortest_eq (hx : x.Canonical) (tie : Tie) : ∃ (c : ℕ) (k : ℤ),
    x.shortest tie = .ofScaled c k ∧ x.Covers (c * 10 ^ k) ∧ (12 ≤ x.exponent → 0 ≤ k) := by
  unfold shortest
  rw [if_neg hx.pos.ne']
  dsimp only
  cases hfound : (List.range 17).findSome? fun (n : ℕ) ↦
      (x.onGrid tie (x.leading - (n : ℤ))).map fun c ↦ (c, x.leading - (n : ℤ)) with
  | none =>
    refine ⟨x.exact.1, x.exact.2, rfl, ?_, fun hlarge ↦ ?_⟩
    · rw [value_exact]
      exact x.covers_value
    · rw [exact, if_pos (by omega)]
  | some scaled =>
    obtain ⟨n, hn, hgrid⟩ := List.exists_of_findSome?_eq_some hfound
    obtain ⟨c, hc, rfl⟩ := Option.map_eq_some_iff.mp hgrid
    refine ⟨c, x.leading - n, rfl, covers_of_readsBack hx (readsBack_of_onGrid hc), fun hlarge ↦ ?_⟩
    have hlead := leading_ge hx hlarge
    rw [List.mem_range] at hn
    omega

end Binary

/-! ### Values of digits -/

theorem digitsValue_append (as bs : List Char) :
    digitsValue (as ++ bs) = digitsValue as * 10 ^ bs.length + digitsValue bs := by
  change Nat.ofDigitChars 10 (as ++ bs) 0 = _
  rw [Nat.ofDigitChars_append, Nat.ofDigitChars_eq_ofDigitChars_zero, mul_comm]
  rfl

theorem digitsValue_replicate_zero (k : ℕ) : digitsValue (List.replicate k '0') = 0 :=
  Nat.ofDigitChars_replicate_zero

/-- The rational that digits stand for. -/
def Digits.value (d : Digits) : ℚ :=
  digitsValue d.digits * 10 ^ (d.exponent + 1 - d.digits.length)

/-- The rational that a numeral stands for. -/
def Numeral.value (n : Numeral) : ℚ :=
  digitsValue n.digits / 10 ^ n.places

section Values

variable {c : ℕ}

/-- A row of characters is what is left without the zeros at its end, and these zeros. -/
theorem exists_eq_append_zeros (ds : List Char) :
    ∃ z, ds = (ds.reverse.dropWhile (· = '0')).reverse ++ List.replicate z '0' := by
  refine ⟨(ds.reverse.takeWhile (· = '0')).length, List.reverse_inj.mp ?_⟩
  rw [List.reverse_append, List.reverse_reverse, List.reverse_replicate]
  have hzeros : ds.reverse.takeWhile (· = '0') =
      List.replicate (ds.reverse.takeWhile (· = '0')).length '0' := by
    rw [List.eq_replicate_iff]
    refine ⟨rfl, fun d hd ↦ ?_⟩
    have hall := List.all_eq_true.mp List.all_takeWhile d hd
    exact of_decide_eq_true hall
  rw [← hzeros, List.takeWhile_append_dropWhile]

/-- The digits of a positive number are the significant ones and zeros. -/
theorem exists_toDigits_eq (hc : 0 < c) (k : ℤ) : ∃ z, Nat.toDigits 10 c =
    (Digits.ofScaled c k).digits ++ List.replicate z '0' := by
  obtain ⟨z, hz⟩ := exists_eq_append_zeros (Nat.toDigits 10 c)
  refine ⟨z, hz.trans ?_⟩
  congr 1
  refine (if_neg fun hnil ↦ ?_).symm
  -- Zeros alone would have the value zero.
  rw [hnil, List.nil_append] at hz
  have hvalue := Source.digitsValue_toDigits c
  rw [hz, digitsValue_replicate_zero] at hvalue
  omega

theorem Digits.value_ofScaled (hc : 0 < c) (k : ℤ) : (ofScaled c k).value = c * 10 ^ k := by
  obtain ⟨z, hz⟩ := exists_toDigits_eq hc k
  have hvalue : digitsValue (ofScaled c k).digits * 10 ^ z = c := by
    have hall := Source.digitsValue_toDigits c
    rwa [hz, digitsValue_append, digitsValue_replicate_zero, List.length_replicate,
      add_zero] at hall
  have hexponent : (ofScaled c k).exponent + 1 - (ofScaled c k).digits.length = z + k := by
    have hlength : (ofScaled c k).exponent = ((Nat.toDigits 10 c).length : ℤ) - 1 + k := rfl
    rw [hlength, hz, List.length_append, List.length_replicate]
    push_cast
    ring
  rw [value, hexponent, zpow_add₀ (by norm_num), zpow_natCast, ← mul_assoc]
  congr 1
  exact_mod_cast hvalue

theorem Numeral.value_eq {n : Numeral} {v j : ℕ} {e : ℤ}
    (hdigits : digitsValue n.digits = v * 10 ^ j) (he : (j : ℤ) - n.places = e) :
    n.value = v * 10 ^ e := by
  rw [value, hdigits, ← he, zpow_sub₀ (by norm_num), zpow_natCast, zpow_natCast]
  push_cast
  ring

/-- Writing digits without an exponent keeps their value. -/
theorem Digits.value_numeral (d : Digits) (h : d.IsProper) : (d.numeral h).value = d.value := by
  unfold numeral
  split
  · next hneg =>
    refine Numeral.value_eq (j := 0) ?_ ?_
    · rw [Numeral.digits, Option.getD_some, digitsValue_append, digitsValue_append,
        digitsValue_replicate_zero]
      simp [digitsValue]
    · rw [Numeral.places, Option.getD_some, List.length_append, List.length_replicate]
      push_cast
      omega
  split
  · next hneg hlength =>
    refine Numeral.value_eq (j := d.exponent.toNat + 1 - d.digits.length) ?_ ?_
    · rw [Numeral.digits, Option.getD_none, List.append_nil, digitsValue_append,
        digitsValue_replicate_zero, List.length_replicate, add_zero]
    · rw [Numeral.places, Option.getD_none, List.length_nil]
      omega
  · next hneg hlength =>
    refine Numeral.value_eq (j := 0) ?_ ?_
    · rw [Numeral.digits, Option.getD_some, List.take_append_drop, pow_zero, mul_one]
    · rw [Numeral.places, Option.getD_some, List.length_drop]
      omega

end Values

/-! ### The numeral of a magnitude -/

namespace Binary

variable {x : Binary}

theorem pos_of_covers {c : ℕ} {k : ℤ} (hx : x.Canonical) (h : x.Covers (c * 10 ^ k)) : 0 < c := by
  refine Nat.pos_of_ne_zero fun hzero ↦ ?_
  have hlow := h.mul_lt hx.pos
  simp only [hzero, Nat.cast_zero, zero_mul, lt_self_iff_false] at hlow

/-- The numeral of a magnitude is in its interval. -/
theorem covers_numeral (hx : x.Canonical) : x.Covers x.numeral.value := by
  obtain ⟨c, k, hshortest, hcovers, -⟩ := exists_shortest_eq hx Layout.plain.tie
  rw [numeral, Digits.value_numeral, hshortest, Digits.value_ofScaled (pos_of_covers hx hcovers)]
  exact hcovers

/-- A large magnitude is written without a point. -/
theorem fraction_eq_none (hx : x.Canonical) (h : 12 ≤ x.exponent) : x.numeral.fraction = none := by
  obtain ⟨c, k, hshortest, hcovers, hk⟩ := exists_shortest_eq hx Layout.plain.tie
  obtain ⟨z, hz⟩ := exists_toDigits_eq (pos_of_covers hx hcovers) k
  have hk := hk h
  have hpos : 0 < (Nat.toDigits 10 c).length := Nat.length_toDigits_pos
  have hlength := congrArg List.length hz
  rw [List.length_append, List.length_replicate] at hlength
  have hexponent : (Digits.ofScaled c k).exponent = ((Nat.toDigits 10 c).length : ℤ) - 1 + k := rfl
  rw [← hshortest] at hlength hexponent
  rw [numeral, Digits.numeral, if_neg (by omega), if_pos (by omega)]

theorem value_numeral_of_none (h : x.numeral.fraction = none) :
    x.numeral.value = digitsValue x.numeral.digits := by
  rw [Numeral.value, Numeral.places, h, Option.getD_none, List.length_nil, pow_zero, div_one]

/-- The interval of a magnitude above `2 ^ 64` does not reach below it. -/
theorem Covers.two_pow_le {v : ℚ} (hx : x.Canonical) (hv : x.Covers v) (h : 12 ≤ x.exponent)
    (hpower : ¬ (x.mantissa = 2 ^ 52 ∧ x.exponent = 12)) : 2 ^ 64 ≤ v := by
  have hnormal := hx.normal (by omega)
  by_cases hexponent : x.exponent = 12
  · have hlow := hv.mul_lt (show 2 ^ 52 < x.mantissa by omega)
    calc (2 : ℚ) ^ 64 = (2 ^ 52 : ℕ) * 2 ^ x.exponent := by rw [hexponent]; norm_num
      _ ≤ v := hlow.le
  · have hlarge : 13 ≤ x.exponent := by omega
    have hlow := hv.mul_lt (show 2 ^ 51 < x.mantissa by omega)
    calc (2 : ℚ) ^ 64 = (2 ^ 51 : ℕ) * 2 ^ (13 : ℤ) := by norm_num
      _ ≤ (2 ^ 51 : ℕ) * 2 ^ x.exponent := by gcongr; norm_num
      _ ≤ v := hlow.le

/-- The digits of a magnitude of at least `2 ^ 64` are too large for an integer literal. The
interval of `2 ^ 64` itself has smaller integers in it, so its digits are computed: they end in
zeros and stand for an integer above it. -/
theorem lt_digitsValue (hx : x.Canonical) (h : 12 ≤ x.exponent) :
    maxInt < digitsValue x.numeral.digits := by
  by_cases hpower : x.mantissa = 2 ^ 52 ∧ x.exponent = 12
  · have hnarrow := hx.narrow.mpr ⟨hpower.1, by omega⟩
    have heq : x = ⟨2 ^ 52, 12, true⟩ := by rw [← hpower.1, ← hpower.2, ← hnarrow]
    rw [heq]
    decide +kernel
  · have hle := (covers_numeral hx).two_pow_le hx h hpower
    rw [value_numeral_of_none (fraction_eq_none hx h)] at hle
    have hvalue : 2 ^ 64 ≤ digitsValue x.numeral.digits := by exact_mod_cast hle
    have hmax : maxInt + 1 = 2 ^ 64 := rfl
    omega

/-- The digits of a magnitude below `2 ^ 64` that is written without a point are an integer literal.
-/
theorem digitsValue_le (hx : x.Canonical) (h : x.exponent ≤ 11)
    (hfraction : x.numeral.fraction = none) :
    digitsValue x.numeral.digits ≤ maxInt := by
  have hlt : x.numeral.value < 2 ^ 64 := calc
    x.numeral.value < (2 ^ 53 : ℕ) * 2 ^ x.exponent := (covers_numeral hx).lt_mul hx.lt
    _ ≤ (2 ^ 53 : ℕ) * 2 ^ (11 : ℤ) := by gcongr; norm_num
    _ = 2 ^ 64 := by norm_num
  rw [value_numeral_of_none hfraction] at hlt
  have hvalue : digitsValue x.numeral.digits < 2 ^ 64 := by exact_mod_cast hlt
  have hmax : maxInt + 1 = 2 ^ 64 := rfl
  omega

end Binary

end Peephole.Decimal
