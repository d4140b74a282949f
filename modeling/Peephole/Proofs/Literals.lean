import Peephole.Proofs.Nearest
import Peephole.Proofs.RoundTrip
import Peephole.Proofs.Shortest

/-!
# Numbers that are read back

A finite number is written with the digits of its decimal expansion and without an exponent. Digits
with a point are read as the nearest number, which is the one that was written. Digits without a
point are an integer literal and have to be below `2 ^ 64`. So the numbers below `2 ^ 64` are the
ones that come back (`printsAsLiteral_iff_fitsLiteral`). The text of a larger one is no token, and
an infinite number comes back as a symbol.

The text of a program that was read is accepted exactly if none of its finite numbers is too large
(`Source.parse_emit_iff`).
-/

set_option autoImplicit false
set_option relaxedAutoImplicit false

namespace Peephole

open Float.Model UnpackedFloat
open Source Source.Lexer Source.Grammar Decimal

/-- The magnitude of a number is below `2 ^ 64`, the least integer that is no literal. -/
def FitsLiteral (c : Float) : Prop :=
  c.abs < Float.ofNat (maxInt + 1)

instance : DecidablePred FitsLiteral :=
  fun c ↦ inferInstanceAs (Decidable (c.abs < Float.ofNat (maxInt + 1)))

/-! ### The size of a number -/

section Size

variable {c : Float}

theorem lt_iff_compare {a b : Float} :
    a < b ↔ UnpackedFloat.compare a.toModel.unpack b.toModel.unpack = some .lt := by
  change decide (a.toModel < b.toModel) = true ↔ _
  rw [decide_eq_true_eq]
  change UnpackedFloat.lt _ _ = true ↔ _
  rw [UnpackedFloat.lt, beq_iff_eq]

theorem fitsLiteral_iff_compare : FitsLiteral c ↔ UnpackedFloat.compare c.toModel.unpack.abs
    (.finite .positive (2 ^ 52) 12 (by decide)) = some .lt := by
  have hlimit : (Float.ofNat (maxInt + 1)).toModel.unpack =
      .finite .positive (2 ^ 52) 12 (by decide) := rfl
  rw [FitsLiteral, lt_iff_compare, Binary64.unpack_abs, hlimit]

/-- Since a mantissa is normal, the exponent decides. -/
theorem fitsLiteral_iff_exponent {x : Binary} {s : Sign} (hx : x.Canonical)
    (hc : c.toModel.unpack = .finite s x.mantissa x.exponent hx.pos) :
    FitsLiteral c ↔ x.exponent ≤ 11 := by
  have hcompare : FitsLiteral c ↔
      some ((compare x.exponent 12).then (compare x.mantissa (2 ^ 52))) = some Ordering.lt := by
    rw [fitsLiteral_iff_compare, hc]
    rfl
  rw [hcompare, Option.some.injEq, Ordering.then_eq_lt, compare_lt_iff_lt, compare_lt_iff_lt,
    compare_eq_iff_eq]
  have hnormal := hx.normal
  omega

end Size

/-! ### The word of a number -/

section Words

variable {x : Binary} {y c : Float}

theorem digitsValue_pos (hx : x.Canonical) : 0 < digitsValue x.numeral.digits := by
  refine Nat.pos_of_ne_zero fun hzero ↦ ?_
  have hlow := (Binary.covers_numeral hx).mul_lt hx.pos
  simp only [Numeral.value, hzero, Nat.cast_zero, zero_div, zero_mul, lt_self_iff_false] at hlow

/-- The numeral of a magnitude below `2 ^ 64` is a literal of its value. -/
theorem exists_word_numeral (hx : x.Canonical)
    (hy : y.toModel.unpack = .finite .positive x.mantissa x.exponent hx.pos) (h : x.exponent ≤ 11) :
    ∃ t, x.numeral.word? = some t ∧ t.number? = some y := by
  have hcovers := Binary.covers_numeral hx
  unfold Numeral.word?
  split
  · exact ⟨_, rfl, congrArg some (nearest_eq hx hy hcovers)⟩
  · next hfraction =>
    rw [if_pos (Binary.digitsValue_le hx h hfraction)]
    refine ⟨_, rfl, congrArg some ?_⟩
    rw [Binary.value_numeral_of_none hfraction] at hcovers
    exact ofNat_eq hx hy (digitsValue_pos hx) hcovers

theorem word?_numeral_eq_none (hx : x.Canonical) (h : 12 ≤ x.exponent) :
    x.numeral.word? = none := by
  rw [Numeral.word?, Binary.fraction_eq_none hx h]
  exact if_neg (Nat.not_le_of_lt (Binary.lt_digitsValue hx h))

theorem exists_word_zero {s : Sign} (hc : c.toModel.unpack = .zero s) :
    ∃ t, (Binary.numeral ⟨0, -1074, false⟩).word? = some t ∧ t.number? = some c.abs := by
  have hword : (Binary.numeral ⟨0, -1074, false⟩).word? = some (.int 0) := by rfl
  have habs : Float.ofNat 0 = c.abs := by
    apply Binary64.eq_of_unpack
    rw [Binary64.unpack_abs, hc]
    rfl
  exact ⟨_, hword, congrArg some habs⟩

theorem exists_infinity_of_isInf (h : c.isInf = true) : ∃ s, c.toModel.unpack = .infinity s := by
  change c.toModel.unpack.isInf = true at h
  cases hc : c.toModel.unpack with
  | infinity s => exact ⟨s, rfl⟩
  | notANumber => rw [hc] at h; cases h
  | zero s => rw [hc] at h; cases h
  | finite s m e hm => rw [hc] at h; cases h

/-- A number is written as a literal, as digits that are no token, or as a name. -/
theorem word_cases (c : Float) :
    (FitsLiteral c ∧ ∃ t, magnitudeWord? c = some t ∧ t.number? = some c.abs) ∨
      (¬ FitsLiteral c ∧ c.isFinite = true ∧ magnitudeWord? c = none) ∨
      (¬ FitsLiteral c ∧ c.isFinite = false ∧
        ∃ name, magnitudeWord? c = some (.identifier name)) := by
  have hfinite : c.isFinite = c.toModel.unpack.isFinite := rfl
  unfold magnitudeWord?
  by_cases hnan : c.isNaN = true
  · have hc : c.toModel.unpack = .notANumber := UnpackedFloat.isNaN_iff.mp hnan
    rw [if_pos hnan, fitsLiteral_iff_compare, hfinite, hc]
    exact .inr (.inr ⟨nofun, rfl, _, rfl⟩)
  rw [if_neg hnan]
  by_cases hinf : c.isInf = true
  · obtain ⟨s, hc⟩ := exists_infinity_of_isInf hinf
    rw [if_pos hinf, fitsLiteral_iff_compare, hfinite, hc]
    exact .inr (.inr ⟨nofun, rfl, _, rfl⟩)
  rw [if_neg hinf]
  rcases Binary64.magnitude_cases (Bool.eq_false_of_not_eq_true hnan)
    (Bool.eq_false_of_not_eq_true hinf) with ⟨s, hc, hzero⟩ | ⟨s, hx, hc⟩
  · rw [fitsLiteral_iff_compare, hzero]
    exact .inl ⟨by rw [hc]; rfl, exists_word_zero hc⟩
  · rw [fitsLiteral_iff_exponent hx hc]
    by_cases hexponent : (Binary.ofFloat c).exponent ≤ 11
    · have habs : c.abs.toModel.unpack = .finite .positive (Binary.ofFloat c).mantissa
          (Binary.ofFloat c).exponent hx.pos := by
        rw [Binary64.unpack_abs, hc]
        rfl
      exact .inl ⟨hexponent, exists_word_numeral hx habs hexponent⟩
    · refine .inr (.inl ⟨hexponent, by rw [hfinite, hc]; rfl, word?_numeral_eq_none hx (by omega)⟩)

/-- The numbers that are written as literals of their magnitudes are the ones below `2 ^ 64`. -/
theorem printsAsLiteral_iff_fitsLiteral : PrintsAsLiteral c ↔ FitsLiteral c := by
  rw [printsAsLiteral_iff]
  rcases word_cases c with ⟨hfits, t, hword, hnumber⟩ | ⟨hfits, -, hword⟩ | ⟨hfits, -, name, hword⟩
  · rw [hword, Option.bind_some, hnumber]
    exact iff_of_true rfl hfits
  · rw [hword]
    exact iff_of_false nofun hfits
  · rw [hword]
    exact iff_of_false nofun hfits

/-- A number is cut off as a token, unless it is finite and too large. -/
theorem word_ne_none_iff : magnitudeWord? c ≠ none ↔ (c.isFinite = true → FitsLiteral c) := by
  rcases word_cases c with ⟨hfits, t, hword, -⟩ | ⟨hfits, hfinite, hword⟩ |
    ⟨-, hinfinite, name, hword⟩
  · rw [hword]
    exact iff_of_true nofun fun _ ↦ hfits
  · rw [hword]
    exact iff_of_false (fun h ↦ h rfl) fun h ↦ hfits (h hfinite)
  · rw [hword, hinfinite]
    exact iff_of_true nofun nofun

/-- The angle that is read from the text of a number: a name, if that is what is written. -/
def readBack (c : Float) : Angle :=
  match magnitudeWord? c with
  | some (.identifier name) => if isNegative c then .neg (.symbol name) else .symbol name
  | _ => .constant c

theorem readBack_of_identifier {name : String} (h : magnitudeWord? c = some (.identifier name)) :
    readBack c = if isNegative c then .neg (.symbol name) else .symbol name := by
  rw [readBack, h]

theorem readBack_of_fitsLiteral (h : FitsLiteral c) : readBack c = .constant c := by
  obtain ⟨t, hword, hnumber⟩ := (printsAsLiteral_iff_fitsLiteral.mpr h).exists_word
  rw [readBack, hword]
  cases t with
  | identifier name => cases hnumber
  | int n => rfl
  | float x => rfl
  | string text => rfl
  | mark m => rfl

theorem readsAs_readBack (hword : magnitudeWord? c ≠ none) : ReadsAs c (readBack c) := by
  rcases word_cases c with ⟨hfits, -⟩ | ⟨-, -, hnone⟩ | ⟨-, -, name, hname⟩
  · rw [readBack_of_fitsLiteral hfits]
    exact (printsAsLiteral_iff_fitsLiteral.mpr hfits).readsAs
  · exact absurd hnone hword
  · rw [readBack_of_identifier hname]
    exact readsAs_of_operand hname (.symbol name)

theorem fitsLiteral_of_readBack (hword : magnitudeWord? c ≠ none) (h : readBack c = .constant c) :
    FitsLiteral c := by
  rcases word_cases c with ⟨hfits, -⟩ | ⟨-, -, hnone⟩ | ⟨-, -, name, hname⟩
  · exact hfits
  · exact absurd hnone hword
  · rw [readBack_of_identifier hname] at h
    split at h <;> cases h

end Words

/-! ### Programs -/

theorem Angle.eq_of_negated_eq_neg {a b : Angle} (h : negated a = neg b) : a = b := by
  cases a <;> cases h <;> rfl

theorem Angle.combine_inj {op : Operator} {a b a' b' : Angle} :
    op.combine a b = op.combine a' b' ↔ a = a' ∧ b = b' := by
  cases op <;> simp [Operator.combine]

/-- An angle that comes back unchanged has only numbers that do. -/
theorem Angle.eq_constant_of_reread {ρ : Float → Angle} {e : Angle} (h : e.reread ρ = e) :
    ∀ c ∈ e.constants, ρ c = constant c := by
  induction e using operatorInduction with
  | constant v =>
    intro c hc
    rw [List.mem_singleton.mp hc]
    exact h
  | symbol name => exact nofun
  | pi => exact nofun
  | neg e ih => exact ih (eq_of_negated_eq_neg h)
  | binary op a b iha ihb =>
    rw [reread_combine] at h
    obtain ⟨ha, hb⟩ := combine_inj.mp h
    rw [constants_combine, List.forall_mem_append]
    exact ⟨iha ha, ihb hb⟩

theorem Gate.params_mapAngles (f : Angle → Angle) (g : Gate) :
    (g.mapAngles f).params = g.params.map f := by
  cases g with
  | standard g => exact g.params_mapAngle f
  | custom name arity params => rfl

theorem Program.angles_reread (ρ : Float → Angle) (p : Program) :
    (p.reread ρ).angles = p.angles.map (Angle.reread ρ) := by
  induction p with
  | nil => rfl
  | cons i p ih =>
    cases i with
    | declare d => exact ih
    | apply a =>
      have hsplit (a : Application) (p : Program) :
          angles (.apply a :: p) = a.gate.params ++ p.angles := rfl
      change angles (.apply (a.reread ρ) :: reread ρ p) = _
      rw [hsplit, hsplit, ih, List.map_append, Application.reread, Gate.params_mapAngles]

namespace Source

variable {source : String} {p q : Program}

/-- The text of a program is accepted only if all its numbers are tokens. -/
theorem word_ne_none_of_parse_emit (hwritable : ∀ i ∈ p, i.Writable) (h : parse p.emit = .ok q) :
    ∀ c ∈ p.constants, magnitudeWord? c ≠ none := by
  intro c hc hnone
  obtain ⟨ws, hws, -⟩ := parse_eq_ok.mp h
  have hmem : none ∈ numberPieces c := by
    unfold numberPieces
    rw [hnone]
    split <;> simp
  have hpieces := Program.mem_pieces hc hmem
  rw [← Program.cut_emit hwritable, hws] at hpieces
  simp at hpieces

/-- The text of a program that was read is accepted exactly if all finite numbers of the program are
below `2 ^ 64`. If the infinite ones are absent as well, then the program comes back with all its
numbers, and only the order of the guards changes; otherwise its angles do not come back. -/
theorem parse_emit_iff (hlength : source.length ≤ maxInt) (h : parse source = .ok p) :
    ((∃ q, parse p.emit = .ok q) ↔ ∀ c ∈ p.constants, c.isFinite = true → FitsLiteral c) ∧
      ((∀ c ∈ p.constants, FitsLiteral c) → parse p.emit = .ok p.negatedFirst) ∧
      ∀ q, parse p.emit = .ok q → q.angles = p.angles → ∀ c ∈ p.constants, FitsLiteral c := by
  have hvalid := valid_of_parse h
  have hwritable := writable_of_parse hlength h
  have hreads (hwords : ∀ c ∈ p.constants, magnitudeWord? c ≠ none) :
      parse p.emit = .ok (p.reread readBack) :=
    parse_emit hvalid hwritable fun c hc ↦ readsAs_readBack (hwords c hc)
  refine ⟨?_, fun hfits ↦ ?_, fun q hq hangles c hc ↦ ?_⟩
  · simp only [← word_ne_none_iff]
    exact ⟨fun ⟨q, hq⟩ ↦ word_ne_none_of_parse_emit hwritable hq, fun hwords ↦ ⟨_, hreads hwords⟩⟩
  · rw [← Program.reread_constant (folded_of_parse h)]
    exact parse_emit hvalid hwritable fun c hc ↦
      (printsAsLiteral_iff_fitsLiteral.mpr (hfits c hc)).readsAs
  · have hwords := word_ne_none_of_parse_emit hwritable hq
    have hreread : q = p.reread readBack := Except.ok.inj (hq.symm.trans (hreads hwords))
    rw [hreread, Program.angles_reread] at hangles
    obtain ⟨θ, hθ, hcθ⟩ := List.mem_flatMap.mp hc
    have hsame : θ.reread readBack = θ :=
      List.map_inj_left.mp (hangles.trans (List.map_id' p.angles).symm) θ hθ
    exact fitsLiteral_of_readBack (hwords c hc) (Angle.eq_constant_of_reread hsame c hcθ)

/-- A large number that fits is accepted again. An infinite one is so as well, and its gate comes
back with another angle. -/
theorem parse_emit_iff_infinite :
    let source := "qubit a; rz(1.5e19) a; rx(-1e400) a;"
    let text := "qubit a;\nrz(15000000000000000000) a;\nrx(-inf) a;\n"
    ∃ p, source.length ≤ maxInt ∧ parse source = .ok p ∧ p.constants = [1.5e19, -1e400] ∧
      p.emit = text ∧ ∃ q, parse text = .ok q ∧ q.angles ≠ p.angles := by
  intro source text
  have hread : (parse source).toOption.map (fun p ↦ (p.constants, p.emit)) =
      some ([1.5e19, -1e400], text) := by decide +kernel
  obtain ⟨p, hp, hpair⟩ := Run.toOption_map_eq_some.mp hread
  obtain ⟨hconstants, hemit⟩ := Prod.mk.inj hpair
  have hlength : source.length ≤ maxInt := by decide +kernel
  obtain ⟨haccepted, -, hangles⟩ := parse_emit_iff hlength hp
  rw [hconstants, hemit] at haccepted hangles
  obtain ⟨q, hq⟩ := haccepted.mpr (by decide +kernel)
  refine ⟨p, hlength, hp, hconstants, hemit, q, hq, fun h ↦ ?_⟩
  exact absurd (hangles q hq h) (by decide +kernel)

/-- A number that is written with an exponent is accepted, and its digits are not. -/
theorem parse_emit_large : ∃ p, parse "qubit a; rz(1e20) a;" = .ok p ∧
    p.emit = "qubit a;\nrz(100000000000000000000) a;\n" ∧ ∀ q, parse p.emit ≠ .ok q := by
  have hread : (parse "qubit a; rz(1e20) a;").toOption.map (fun p ↦ (p.emit, (parse p.emit).isOk)) =
      some ("qubit a;\nrz(100000000000000000000) a;\n", false) := by decide +kernel
  obtain ⟨p, hp, hpair⟩ := Run.toOption_map_eq_some.mp hread
  obtain ⟨hemit, hrejected⟩ := Prod.mk.inj hpair
  refine ⟨p, hp, hemit, fun q hq ↦ ?_⟩
  rw [hq] at hrejected
  cases hrejected

end Source

end Peephole
