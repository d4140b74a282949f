import Mathlib.Data.List.TakeWhile
import Peephole.Proofs.JsonNesting
import Peephole.Proofs.Numerals

/-!
# Texts of JSON values

The text of a value is cut into the tokens of that value, in either style (`Legible.written`), so
the value is read back from it down to the depth that is read (`Legible.parse?_write`).

Strings are read back whatever they hold: every character is read from the way it is written
(`exists_piece`). A number ends where its text does as long as what follows does not continue it
(`Closes`, `number?_append`), so that a number whose text is read back on its own is also read back
in front of a comma, a bracket or a line break (`ReadsBack.tokens?_render`).
-/

set_option autoImplicit false
set_option relaxedAutoImplicit false

namespace Peephole.Json

open Text (isDigit digitValue hexValue?)

/-! ### Numbers -/

/-- A character that can stand in a number. -/
def isNumberChar (c : Char) : Bool :=
  isDigit c || c = '.' || c = 'e' || c = 'E' || c = '+' || c = '-'

/-- A text that does not continue a number. -/
def Closes (cs : List Char) : Prop :=
  ∀ c, cs.head? = some c → isNumberChar c = false

section Numbers

variable {c : Char} {cs rest : List Char} {j : Json} {n : Nat} {negative : Bool}

theorem closes_nil : Closes [] := by
  intro c h
  cases h

theorem closes_cons (h : isNumberChar c = false) : Closes (c :: rest) := by
  rintro c' ⟨⟩
  exact h

/-- No character of a number is a blank. -/
theorem isBlank_of_isNumberChar (h : isNumberChar c = true) : isBlank c = false := by
  by_contra hblank
  simp only [isBlank, Bool.not_eq_false, Bool.or_eq_true, decide_eq_true_eq] at hblank
  rcases hblank with ((rfl | rfl) | rfl) | rfl <;> cases h

theorem isNumberChar_of_isDigit (h : isDigit c = true) : isNumberChar c = true := by
  simp [isNumberChar, h]

theorem takeWhile_append_of_closes (h : Closes rest) :
    (cs ++ rest).takeWhile isDigit = cs.takeWhile isDigit := by
  have hrest : rest.takeWhile isDigit = [] := by
    cases rest with
    | nil => rfl
    | cons c rest =>
      have hc := h c rfl
      simp only [isNumberChar, Bool.or_eq_false_iff] at hc
      exact List.takeWhile_cons_of_neg (by simp [hc])
  rw [List.takeWhile_append, hrest, List.append_nil]
  split
  · next hall => exact ((List.takeWhile_prefix _).eq_of_length hall).symm
  · rfl

theorem fraction?_append (h : Closes rest) : fraction? (cs ++ rest) = fraction? cs := by
  cases cs with
  | nil =>
    cases rest with
    | nil => rfl
    | cons c rest =>
      have hc := h c rfl
      have hpoint : c ≠ '.' := by
        rintro rfl
        cases hc
      simp [fraction?, hpoint]
  | cons c cs =>
    by_cases hpoint : c = '.'
    · subst hpoint
      simp only [List.cons_append, fraction?, takeWhile_append_of_closes h]
    · simp [fraction?, hpoint]

theorem exponent?_append (h : Closes rest) : exponent? (cs ++ rest) = exponent? cs := by
  cases cs with
  | nil =>
    cases rest with
    | nil => rfl
    | cons c rest =>
      have hc := h c rfl
      simp only [isNumberChar, Bool.or_eq_false_iff] at hc
      simp [exponent?, hc]
  | cons e cs =>
    cases cs with
    | nil =>
      cases rest with
      | nil => rfl
      | cons c rest =>
        have hc := h c rfl
        simp only [isNumberChar, Bool.or_eq_false_iff, decide_eq_false_iff_not] at hc
        simp [exponent?, hc]
    | cons c cs =>
      simp only [List.cons_append, exponent?]
      by_cases hminus : c = '-'
      · simp [hminus, takeWhile_append_of_closes h]
      by_cases hplus : c = '+'
      · simp [hplus, takeWhile_append_of_closes h]
      · have happend := @takeWhile_append_of_closes (c :: cs) rest h
        rw [List.cons_append] at happend
        simp [hminus, hplus, happend]

theorem length_le_of_fraction? {ds : List Char} (h : fraction? cs = some (ds, n)) :
    n ≤ cs.length := by
  unfold fraction? at h
  split at h
  · next rest =>
    dsimp only at h
    split at h
    · cases h
    · cases h
      have hle := (List.takeWhile_sublist (l := rest) isDigit).length_le
      rw [List.length_cons]
      omega
  · cases h
    exact Nat.zero_le _

theorem length_le_of_exponent? {e : Option Int} (h : exponent? cs = some (e, n)) :
    n ≤ cs.length := by
  cases cs with
  | nil =>
    cases h
    exact Nat.le_refl _
  | cons c cs =>
    -- the digits of the exponent stand behind a sign of some length
    have hdigits (k : Nat) {e' : Option Int}
        (h : (if ((cs.drop k).takeWhile isDigit).isEmpty = true then none
          else some (e', 1 + k + ((cs.drop k).takeWhile isDigit).length)) = some (e, n)) :
        n ≤ (c :: cs).length := by
      split at h
      · cases h
      · next hne =>
        cases h
        have hle := (List.takeWhile_sublist (l := cs.drop k) isDigit).length_le
        have hpos := List.length_pos_iff.mpr (mt List.isEmpty_iff.mpr hne)
        rw [List.length_drop] at hle
        rw [List.length_cons]
        omega
    simp only [exponent?] at h
    split at h
    · split at h
      · exact hdigits 1 h
      · exact hdigits 1 h
      · exact hdigits 0 h
    · cases h
      exact Nat.zero_le _

/-- What follows a number does not change how it is read. -/
theorem number?_append (h : Closes rest) : number? negative (cs ++ rest) = number? negative cs := by
  have hlength := (List.takeWhile_sublist (l := cs) isDigit).length_le
  simp only [number?, takeWhile_append_of_closes h, List.drop_append_of_le_length hlength,
    fraction?_append h]
  split
  · rfl
  · cases hfraction : fraction? (cs.drop (cs.takeWhile isDigit).length) with
    | none => rfl
    | some r =>
      obtain ⟨ds, n⟩ := r
      simp only [Option.bind_eq_bind, Option.bind_some,
        List.drop_append_of_le_length (length_le_of_fraction? hfraction), exponent?_append h]

theorem bounds_of_number? (h : number? negative cs = some (j, n)) : 0 < n ∧ n ≤ cs.length := by
  have hwhole := (List.takeWhile_sublist (l := cs) isDigit).length_le
  simp only [number?] at h
  split at h
  · cases h
  · next hdigits =>
    have hne : cs.takeWhile isDigit ≠ [] := by
      intro hnil
      simp [hnil] at hdigits
    have hpos := List.length_pos_iff.mpr hne
    obtain ⟨⟨ds, k⟩, hfraction, h⟩ := Option.bind_eq_some_iff.mp h
    obtain ⟨⟨e, l⟩, hexponent, h⟩ := Option.bind_eq_some_iff.mp h
    cases h
    have hk := length_le_of_fraction? hfraction
    have hl := length_le_of_exponent? hexponent
    rw [List.length_drop] at hk hl
    rw [List.length_drop] at hl
    omega

end Numbers

/-! ### Strings -/

section Strings

variable {c : Char} {cs rest : List Char}

theorem hexValue?_hexDigit : ∀ d < 16, hexValue? (hexDigit d) = some d := by
  decide

theorem pieces?_escaped {e : Char} (h : escaped? e = some c) :
    pieces? ('\\' :: e :: rest) = (pieces? rest).map fun r ↦ (.char c :: r.1, r.2 + 2) := by
  have hcode : e ≠ 'u' := by
    rintro rfl
    cases h
  rw [pieces?.eq_def]
  split
  · next heq => cases heq
  · next heq => cases heq
  · next heq => exact absurd (List.cons.inj (List.cons.inj heq).2).1 hcode
  · next heq =>
    cases heq
    rw [h]
    cases pieces? rest <;> rfl
  · next hne heq =>
    cases heq
    exact (hne e rest rfl rfl).elim

theorem pieces?_code {a b c d : Char} {n : Nat} (h : hexValue4? a b c d = some n) :
    pieces? ('\\' :: 'u' :: a :: b :: c :: d :: rest) =
      (pieces? rest).map fun r ↦ (.code n :: r.1, r.2 + 6) := by
  rw [pieces?, h]
  cases pieces? rest <;> rfl

theorem pieces?_plain (h : 0x20 ≤ c.toNat) (hquote : c ≠ '"') (hslash : c ≠ '\\') :
    pieces? (c :: rest) = (pieces? rest).map fun r ↦ (.char c :: r.1, r.2 + 1) := by
  rw [pieces?.eq_def]
  split
  · next heq => cases heq
  · next heq => exact absurd (List.cons.inj heq).1 hquote
  · next heq => exact absurd (List.cons.inj heq).1 hslash
  · next heq => exact absurd (List.cons.inj heq).1 hslash
  · next heq =>
    cases heq
    have hplain : (decide (c.toNat < 32) || decide (c = '\\')) = false := by simp [h, hslash]
    rw [hplain]
    cases pieces? rest <;> rfl

/-- A character is read back from the way it is written. -/
theorem exists_piece (c : Char) : ∃ piece, (∀ rest, pieces? (escapeChar c ++ rest) =
      (pieces? rest).map fun r ↦ (piece :: r.1, r.2 + (escapeChar c).length)) ∧
    ∀ ps, characters? (piece :: ps) = (characters? ps).map (c :: ·) := by
  have hback (n : Nat) (h : c.toNat = n) : Char.ofNat n = c := by rw [← h, Char.ofNat_toNat]
  have hescaped {e : Char} (h : escaped? e = some c) : ∃ piece,
      (∀ rest, pieces? (['\\', e] ++ rest) =
        (pieces? rest).map fun r ↦ (piece :: r.1, r.2 + 2)) ∧
      ∀ ps, characters? (piece :: ps) = (characters? ps).map (c :: ·) :=
    ⟨.char c, fun _ ↦ pieces?_escaped h, fun _ ↦ rfl⟩
  unfold escapeChar
  split
  · next h => exact hescaped (congrArg some h.symm)
  split
  · next h => exact hescaped (congrArg some h.symm)
  split
  · next h => exact hescaped (congrArg some h.symm)
  split
  · next h => exact hescaped (congrArg some h.symm)
  split
  · next h => exact hescaped (congrArg some h.symm)
  split
  · next h => exact hescaped (congrArg some (hback _ h))
  split
  · next h => exact hescaped (congrArg some (hback _ h))
  split
  · next h =>
    have hhigh := hexValue?_hexDigit (c.toNat / 16) (by omega)
    have hlow := hexValue?_hexDigit (c.toNat % 16) (by omega)
    have hvalue : hexValue4? '0' '0' (hexDigit (c.toNat / 16)) (hexDigit (c.toNat % 16)) =
        some c.toNat := by
      rw [hexValue4?, hhigh, hlow]
      change some (((0 * 16 + 0) * 16 + c.toNat / 16) * 16 + c.toNat % 16) = _
      exact congrArg some (by omega)
    refine ⟨.code c.toNat, fun _ ↦ pieces?_code hvalue, fun ps ↦ ?_⟩
    have hsurrogate : isHighSurrogate c.toNat = false ∧ isLowSurrogate c.toNat = false := by
      simp only [isHighSurrogate, isLowSurrogate, Bool.and_eq_false_iff, decide_eq_false_iff_not]
      omega
    rw [characters?.eq_def]
    simp [hsurrogate]
  · next hquote hslash _ _ _ _ _ h =>
    exact ⟨.char c, fun _ ↦ pieces?_plain (Nat.le_of_not_lt h) hquote hslash, fun _ ↦ rfl⟩

/-- A string is read back up to its closing quote. -/
theorem exists_pieces (cs rest : List Char) : ∃ ps,
    pieces? (cs.flatMap escapeChar ++ '"' :: rest) =
      some (ps, (cs.flatMap escapeChar).length + 1) ∧ characters? ps = some cs := by
  induction cs with
  | nil => exact ⟨[], rfl, rfl⟩
  | cons c cs ih =>
    obtain ⟨ps, hpieces, hcharacters⟩ := ih
    obtain ⟨piece, hpiece, hcharacter⟩ := exists_piece c
    refine ⟨piece :: ps, ?_, ?_⟩
    · rw [List.flatMap_cons, List.append_assoc, hpiece, hpieces, List.length_append]
      exact congrArg (fun n ↦ some (piece :: ps, n)) (by omega)
    · rw [hcharacter, hcharacters, Option.map_some]

end Strings

/-! ### Tokens -/

section Tokens

variable {c : Char} {cs rest : List Char} {t : Token} {j : Json} {n : Nat} {x : Float}

theorem tokens?_blank (h : isBlank c = true) : tokens? (c :: rest) = tokens? rest := by
  rw [tokens?, if_pos h]

theorem tokens?_blanks (h : ∀ c ∈ cs, isBlank c = true) : tokens? (cs ++ rest) = tokens? rest := by
  induction cs with
  | nil => rfl
  | cons c cs ih =>
    rw [List.forall_mem_cons] at h
    rw [List.cons_append, tokens?_blank h.1, ih h.2]

/-- The first token of a text. -/
theorem tokens?_of_token? (hblank : isBlank c = false)
    (h : token? c (cs ++ rest) = some (t, cs.length)) :
    tokens? (c :: (cs ++ rest)) = (tokens? rest).map (t :: ·) := by
  rw [tokens?, hblank, h]
  simp

theorem tokens?_punctuation (h : punctuation? c = some t) :
    tokens? (c :: rest) = (tokens? rest).map (t :: ·) := by
  have hblank : isBlank c = false := by
    unfold punctuation? at h
    split at h
    case h_7 => cases h
    all_goals rfl
  exact @tokens?_of_token? c [] rest t hblank (by rw [List.nil_append, token?, h]; rfl)

theorem tokens?_quote (s : String) :
    tokens? ((quote s).toList ++ rest) = (tokens? rest).map (.string (some s) :: ·) := by
  obtain ⟨ps, hpieces, hcharacters⟩ := exists_pieces s.toList rest
  have htext : (quote s).toList ++ rest =
      '"' :: ((s.toList.flatMap escapeChar ++ ['"']) ++ rest) := by
    simp [quote]
  rw [htext]
  refine tokens?_of_token? rfl ?_
  rw [List.append_assoc, List.singleton_append, token?]
  change Option.map _ (pieces? _) = _
  rw [hpieces, Option.map_some]
  dsimp only
  rw [hcharacters, Option.map_some, String.ofList_toList, List.length_append]
  rfl

theorem punctuation?_of_isDigit (h : isDigit c = true) : punctuation? c = none := by
  unfold punctuation?
  split
  case h_7 => rfl
  all_goals cases h

theorem tokens?_unsigned (hc : isDigit c = true)
    (h : number? false (c :: cs) = some (j, cs.length + 1)) (hrest : Closes rest) :
    tokens? (c :: (cs ++ rest)) = (tokens? rest).map (.plain j :: ·) := by
  have hblank := isBlank_of_isNumberChar (isNumberChar_of_isDigit hc)
  refine tokens?_of_token? hblank ?_
  have hquote : c ≠ '"' := by rintro rfl; cases hc
  have hminus : c ≠ '-' := by rintro rfl; cases hc
  rw [token?, punctuation?_of_isDigit hc]
  dsimp only
  rw [if_neg hquote, if_neg hminus, if_pos hc, ← List.cons_append, number?_append hrest, h]
  rfl

theorem tokens?_negative (h : number? true cs = some (j, cs.length)) (hrest : Closes rest) :
    tokens? ('-' :: (cs ++ rest)) = (tokens? rest).map (.plain j :: ·) := by
  refine tokens?_of_token? rfl ?_
  change Option.map _ (number? true (cs ++ rest)) = _
  rw [number?_append hrest, h]
  rfl

/-! ### Whole numbers -/

theorem le_foldl_digits {k : Nat} : k ≤ cs.foldl (fun n d ↦ 10 * n + digitValue d) k := by
  induction cs generalizing k with
  | nil => exact Nat.le_refl k
  | cons d ds ih => exact Nat.le_trans (by omega) (ih (k := 10 * k + digitValue d))

/-- Digits are kept as long as their value is within bounds. -/
theorem absorb_of_le {k : Nat}
    (h : cs.foldl (fun n d ↦ 10 * n + digitValue d) k ≤ maxSignificand) :
    absorb k cs = (cs.foldl (fun n d ↦ 10 * n + digitValue d) k, []) := by
  induction cs generalizing k with
  | nil => rfl
  | cons d ds ih =>
    rw [List.foldl_cons] at h ⊢
    rw [absorb, if_pos (Nat.le_trans le_foldl_digits h), ih h]

/-- A number has no zero in front of other digits. -/
theorem head?_toDigits (h : 0 < n) : (Nat.toDigits 10 n).head? ≠ some '0' := by
  induction n using Nat.strongRecOn with
  | ind n ih =>
    by_cases hn : n < 10
    · rw [Nat.toDigits_of_lt_base hn]
      have hdigits : ∀ d < 10, 0 < d → [Nat.digitChar d].head? ≠ some '0' := by decide
      exact hdigits n hn h
    · have hsplit := Nat.toDigits_append_toDigits (b := 10) (n := n / 10) (d := n % 10) (by decide)
        (by omega) (by omega)
      rw [Nat.div_add_mod] at hsplit
      rw [← hsplit, List.head?_append_of_ne_nil _ Nat.toDigits_ne_nil]
      exact ih (n / 10) (by omega) (by omega)

theorem number?_toDigits (h : n ≤ maxSignificand) :
    number? false (Nat.toDigits 10 n) = some (.whole n, (Nat.toDigits 10 n).length) := by
  have hdigits : (Nat.toDigits 10 n).takeWhile isDigit = Nat.toDigits 10 n :=
    List.takeWhile_eq_self_iff.mpr fun c hc ↦ Decimal.isDigit_of_mem_toDigits hc
  have hvalue : (Nat.toDigits 10 n).foldl (fun n d ↦ 10 * n + digitValue d) 0 = n :=
    Source.digitsValue_toDigits n
  have hplain : ((Nat.toDigits 10 n).isEmpty ||
      (decide ((Nat.toDigits 10 n).head? = some '0') && decide (1 < (Nat.toDigits 10 n).length))) =
      false := by
    rcases Nat.eq_zero_or_pos n with rfl | hpos
    · rfl
    · simp [head?_toDigits hpos]
  simp only [number?, hdigits, hplain, List.drop_length]
  have habsorb := @absorb_of_le (Nat.toDigits 10 n) 0 (by rwa [hvalue])
  rw [hvalue] at habsorb
  change some (numberValue false _ [] none, _) = _
  rw [numberValue, habsorb]
  rfl

theorem tokens?_repr (h : n ≤ maxSignificand) (hrest : Closes rest) :
    tokens? (n.repr.toList ++ rest) = (tokens? rest).map (.plain (.whole n) :: ·) := by
  have hnumber := number?_toDigits h
  have hdigits : ∀ c ∈ Nat.toDigits 10 n, isDigit c = true := fun c hc ↦
    Decimal.isDigit_of_mem_toDigits hc
  rw [Nat.toList_repr]
  cases htext : Nat.toDigits 10 n with
  | nil => exact absurd htext Nat.toDigits_ne_nil
  | cons c cs =>
    rw [htext] at hnumber hdigits
    exact tokens?_unsigned (hdigits c List.mem_cons_self) hnumber hrest

/-! ### Other numbers -/

theorem isNumberChar_of_mem_digits {d : Decimal.Digits} (hd : d.IsProper) :
    (∀ c ∈ (d.positional numberLayout.wholeEnding).toList, isNumberChar c = true) ∧
      ∀ c ∈ d.scientific.toList, isNumberChar c = true := by
  have hzero (k : Nat) : ∀ c ∈ List.replicate k '0', isNumberChar c = true := fun c hc ↦
    isNumberChar_of_isDigit (Decimal.isDigit_of_mem_replicate hc)
  have hdigit : ∀ c ∈ d.digits, isNumberChar c = true := fun c hc ↦
    isNumberChar_of_isDigit (hd.2 c hc)
  constructor
  · unfold Decimal.Digits.positional
    split
    · simp only [String.toList_append, String.toList_ofList, List.forall_mem_append]
      exact ⟨List.all_eq_true.mp rfl, hzero _, hdigit⟩
    · dsimp only
      split
      · simp only [String.toList_append, String.toList_ofList, List.forall_mem_append]
        exact ⟨⟨hdigit, hzero _⟩, List.all_eq_true.mp rfl⟩
      · simp only [String.toList_append, String.toList_ofList, List.forall_mem_append]
        exact ⟨⟨fun c hc ↦ hdigit c (List.mem_of_mem_take hc), List.all_eq_true.mp rfl⟩,
          fun c hc ↦ hdigit c (List.mem_of_mem_drop hc)⟩
  · unfold Decimal.Digits.scientific
    simp only [String.toList_append, Nat.toList_repr, List.forall_mem_append]
    refine ⟨⟨⟨?_, List.all_eq_true.mp rfl⟩, ?_⟩, fun c hc ↦
      isNumberChar_of_isDigit (Decimal.isDigit_of_mem_toDigits hc)⟩
    · split
      · exact List.forall_mem_nil _
      · next c hc => simpa [hc] using hdigit
      · next c cs _ hc =>
        rw [hc, List.forall_mem_cons] at hdigit
        simp only [String.toList_ofList, List.forall_mem_cons]
        exact ⟨hdigit.1, by decide, hdigit.2⟩
    · split <;> exact List.all_eq_true.mp rfl

theorem isBlank_of_mem_render (h : c ∈ (numberLayout.render x).toList) : isBlank c = false := by
  have hnull : ∀ c ∈ "null".toList, isBlank c = false := by simp [isBlank]
  unfold Decimal.Layout.render at h
  split at h
  · exact hnull c h
  dsimp only at h
  split at h
  · split at h <;> exact hnull c h
  · obtain ⟨hpositional, hscientific⟩ := isNumberChar_of_mem_digits
      (Decimal.Binary.isProper_shortest numberLayout.tie (Decimal.Binary.ofFloat x))
    have hbody : ∀ c ∈ (if numberLayout.positional
          ((Decimal.Binary.ofFloat x).shortest numberLayout.tie).exponent then
        ((Decimal.Binary.ofFloat x).shortest numberLayout.tie).positional numberLayout.wholeEnding
        else ((Decimal.Binary.ofFloat x).shortest numberLayout.tie).scientific).toList,
        isNumberChar c = true := by
      split
      · exact hpositional
      · exact hscientific
    refine isBlank_of_isNumberChar ?_
    split at h
    · rw [String.toList_append, List.mem_append] at h
      rcases h with h | h
      · rw [List.mem_singleton.mp h]
        decide
      · exact hbody c h
    · exact hbody c h

/-- A text that is read as a number is a single token. -/
theorem tokens?_of_parse? {text : String} (h : parse? text = some (real x)) :
    tokens? text.toList = some [.plain (real x)] := by
  obtain ⟨ts, hts, h⟩ := Option.bind_eq_some_iff.mp h
  obtain ⟨⟨⟨j, rest⟩, hlength⟩, hvalue, h⟩ := Option.bind_eq_some_iff.mp h
  dsimp only at h
  split at h
  · next hempty =>
    cases h
    cases List.isEmpty_iff.mp hempty
    rw [hts, eq_of_value? (congrArg view hvalue)]
  · cases h

/-- The first token of a text without blanks. -/
theorem exists_token?_of_tokens? {ts : List Token} (hblank : isBlank c = false)
    (h : tokens? (c :: cs) = some ts) :
    ∃ t n ts', token? c cs = some (t, n) ∧ tokens? (cs.drop n) = some ts' ∧ ts = t :: ts' := by
  rw [tokens?, hblank] at h
  cases htoken : token? c cs with
  | none => simp [htoken] at h
  | some r =>
    obtain ⟨t, n⟩ := r
    simp only [htoken, Bool.false_eq_true, if_false] at h
    obtain ⟨ts', hts', rfl⟩ := Option.map_eq_some_iff.mp h
    exact ⟨t, n, ts', rfl, hts', rfl⟩

theorem eq_nil_of_tokens? (hblank : ∀ c ∈ cs, isBlank c = false) (h : tokens? cs = some []) :
    cs = [] := by
  cases cs with
  | nil => rfl
  | cons c cs =>
    obtain ⟨t, n, ts, -, -, hts⟩ := exists_token?_of_tokens? (hblank c List.mem_cons_self) h
    cases hts

/-- A token with a number that is not whole. -/
theorem number?_of_token? (h : token? c cs = some (.plain (real x), n)) :
    c = '-' ∧ number? true cs = some (real x, n) ∨
      isDigit c = true ∧ number? false (c :: cs) = some (real x, n + 1) := by
  unfold token? at h
  split at h
  · next t hpunctuation =>
    unfold punctuation? at hpunctuation
    split at hpunctuation <;> cases hpunctuation <;> cases h
  · split at h
    · obtain ⟨r, -, hr⟩ := Option.map_eq_some_iff.mp h
      cases hr
    split at h
    · next hminus =>
      obtain ⟨⟨j, k⟩, hnumber, hr⟩ := Option.map_eq_some_iff.mp h
      cases hr
      exact .inl ⟨hminus, hnumber⟩
    split at h
    · next hdigit =>
      obtain ⟨⟨j, k⟩, hnumber, hr⟩ := Option.map_eq_some_iff.mp h
      cases hr
      have hpos := (bounds_of_number? hnumber).1
      exact .inr ⟨hdigit, by rw [hnumber, Nat.sub_add_cancel hpos]⟩
    · unfold word? at h
      split at h
      · cases h
      split at h
      · cases h
      split at h <;> cases h

/-- A number that is read back from its text is read from it in front of other texts. -/
theorem ReadsBack.tokens?_render (h : ReadsBack x) (hrest : Closes rest) :
    tokens? ((numberLayout.render x).toList ++ rest) =
      (tokens? rest).map (.plain (real x) :: ·) := by
  have htokens : tokens? (numberLayout.render x).toList = some [.plain (real x)] :=
    tokens?_of_parse? h
  have hblank : ∀ c ∈ (numberLayout.render x).toList, isBlank c = false :=
    fun c hc ↦ isBlank_of_mem_render hc
  cases htext : (numberLayout.render x).toList with
  | nil =>
    rw [htext, tokens?] at htokens
    cases htokens
  | cons c cs =>
    rw [htext] at htokens hblank
    rw [List.forall_mem_cons] at hblank
    obtain ⟨t, n, ts, htoken, hdrop, hts⟩ := exists_token?_of_tokens? hblank.1 htokens
    cases hts
    have hnil := eq_nil_of_tokens? (fun c hc ↦ hblank.2 c (List.mem_of_mem_drop hc)) hdrop
    have hle : cs.length ≤ n := List.drop_eq_nil_iff.mp hnil
    rcases number?_of_token? htoken with ⟨rfl, hnumber⟩ | ⟨hdigit, hnumber⟩
    · have hbounds := (bounds_of_number? hnumber).2
      cases Nat.le_antisymm hbounds hle
      exact tokens?_negative hnumber hrest
    · have hbounds := (bounds_of_number? hnumber).2
      cases Nat.le_antisymm (Nat.le_of_succ_le_succ hbounds) hle
      exact tokens?_unsigned hdigit hnumber hrest

end Tokens

/-! ### Texts of values -/

section Texts

variable {style : Style} {level : Nat} {rest : List Char} {j : Json} {items : List Json}
  {members : List (String × Json)}

theorem tokens?_lineBreak : tokens? ((style.lineBreak level).toList ++ rest) = tokens? rest := by
  refine tokens?_blanks ?_
  cases style with
  | compact => exact List.forall_mem_nil _
  | pretty =>
    simp only [Style.lineBreak, String.toList_append, String.toList_ofList, List.forall_mem_append]
    refine ⟨List.all_eq_true.mp rfl, fun c hc ↦ ?_⟩
    rw [List.eq_of_mem_replicate hc]
    rfl

theorem tokens?_opening {c : Char} {t : Token} (h : punctuation? c = some t) :
    tokens? (c :: ((style.lineBreak level).toList ++ rest)) = (tokens? rest).map (t :: ·) := by
  rw [tokens?_punctuation h, tokens?_lineBreak]

theorem tokens?_closing {c : Char} {t : Token} (h : punctuation? c = some t) :
    tokens? ((style.lineBreak level).toList ++ c :: rest) = (tokens? rest).map (t :: ·) := by
  rw [tokens?_lineBreak, tokens?_punctuation h]

theorem tokens?_colon :
    tokens? (style.colon.toList ++ rest) = (tokens? rest).map (.colon :: ·) := by
  cases style with
  | compact => exact tokens?_punctuation rfl
  | pretty =>
    change tokens? (':' :: ' ' :: rest) = _
    rw [tokens?_punctuation rfl, tokens?_blank rfl]

theorem closes_lineBreak (h : Closes rest) : Closes ((style.lineBreak level).toList ++ rest) := by
  cases style with
  | compact => exact h
  | pretty =>
    rw [Style.lineBreak, String.toList_append]
    exact closes_cons rfl

/-- The text of a value is cut into its tokens, whatever follows that does not continue a number. -/
def Written (j : Json) : Prop :=
  ∀ (style : Style) (level : Nat) (rest : List Char), Closes rest →
    tokens? ((j.write style level).toList ++ rest) = (tokens? rest).map (j.tokens ++ ·)

theorem closes_writeItems (h : Closes rest) :
    Closes ((writeItems style level items).toList ++ rest) := by
  cases items with
  | nil =>
    rw [writeItems]
    exact h
  | cons item items =>
    rw [writeItems]
    simp only [String.toList_append, List.append_assoc]
    exact closes_cons rfl

theorem tokens?_writeItems (hitems : ∀ j ∈ items, Written j) (h : Closes rest) :
    tokens? ((writeItems style level items).toList ++ rest) =
      (tokens? rest).map (itemTokens items ++ ·) := by
  induction items with
  | nil =>
    rw [writeItems, itemTokens]
    simp
  | cons item items ih =>
    rw [List.forall_mem_cons] at hitems
    rw [writeItems, itemTokens]
    simp only [String.toList_append, List.append_assoc]
    change tokens? (',' :: ((style.lineBreak level).toList ++ _)) = _
    rw [tokens?_opening rfl, hitems.1 _ _ _ (closes_writeItems h), ih hitems.2]
    simp [Option.map_map, Function.comp_def]

theorem closes_writeMembers (h : Closes rest) :
    Closes ((writeMembers style level members).toList ++ rest) := by
  cases members with
  | nil =>
    rw [writeMembers]
    exact h
  | cons member members =>
    rw [writeMembers]
    simp only [String.toList_append, List.append_assoc]
    exact closes_cons rfl

theorem tokens?_writeMembers (hmembers : ∀ m ∈ members, Written m.2) (h : Closes rest) :
    tokens? ((writeMembers style level members).toList ++ rest) =
      (tokens? rest).map (memberTokens members ++ ·) := by
  induction members with
  | nil =>
    rw [writeMembers, memberTokens]
    simp
  | cons member members ih =>
    rw [List.forall_mem_cons] at hmembers
    rw [writeMembers, memberTokens]
    simp only [String.toList_append, List.append_assoc]
    change tokens? (',' :: ((style.lineBreak level).toList ++ _)) = _
    rw [tokens?_opening rfl, tokens?_quote, tokens?_colon,
      hmembers.1 _ _ _ (closes_writeMembers h), ih hmembers.2]
    simp [Option.map_map, Function.comp_def]

/-! One lemma for each kind of value says that its text is cut into its tokens. -/

theorem written_null : Written null := by
  intro style level rest _
  change tokens? ("null".toList ++ rest) = _
  exact @tokens?_of_token? 'n' ['u', 'l', 'l'] rest _ rfl rfl

theorem written_bool (b : Bool) : Written (bool b) := by
  intro style level rest _
  cases b with
  | false =>
    change tokens? ("false".toList ++ rest) = _
    exact @tokens?_of_token? 'f' ['a', 'l', 's', 'e'] rest _ rfl rfl
  | true =>
    change tokens? ("true".toList ++ rest) = _
    exact @tokens?_of_token? 't' ['r', 'u', 'e'] rest _ rfl rfl

theorem written_whole {n : Nat} (h : n ≤ maxSignificand) : Written (whole n) :=
  fun _ _ _ hrest ↦ tokens?_repr h hrest

theorem written_real {x : Float} (h : ReadsBack x) : Written (real x) :=
  fun _ _ _ hrest ↦ h.tokens?_render hrest

theorem written_string (s : String) : Written (string s) :=
  fun _ _ _ _ ↦ tokens?_quote s

theorem written_array (hitems : ∀ j ∈ items, Written j) : Written (array items) := by
  intro style level rest _
  cases items with
  | nil =>
    rw [write, tokens]
    change tokens? ('[' :: ']' :: rest) = _
    rw [tokens?_punctuation rfl, tokens?_punctuation rfl, Option.map_map]
    rfl
  | cons item items =>
    rw [List.forall_mem_cons] at hitems
    have hclose : Closes ((style.lineBreak level).toList ++ ']' :: rest) :=
      closes_lineBreak (closes_cons rfl)
    rw [write, tokens]
    simp only [String.toList_append, List.append_assoc]
    change tokens? ('[' :: ((style.lineBreak (level + 1)).toList ++
      (_ ++ (_ ++ (_ ++ ']' :: rest))))) = _
    rw [tokens?_opening rfl, hitems.1 _ _ _ (closes_writeItems hclose),
      tokens?_writeItems hitems.2 hclose, tokens?_closing rfl]
    simp [Option.map_map, Function.comp_def]

theorem written_object (hmembers : ∀ m ∈ members, Written m.2) : Written (object members) := by
  intro style level rest _
  cases members with
  | nil =>
    rw [write, tokens]
    change tokens? ('\x7b' :: '\x7d' :: rest) = _
    rw [tokens?_punctuation rfl, tokens?_punctuation rfl, Option.map_map]
    rfl
  | cons member members =>
    rw [List.forall_mem_cons] at hmembers
    have hclose : Closes ((style.lineBreak level).toList ++ '\x7d' :: rest) :=
      closes_lineBreak (closes_cons rfl)
    rw [write, tokens]
    simp only [String.toList_append, List.append_assoc]
    change tokens? ('\x7b' :: ((style.lineBreak (level + 1)).toList ++
      (_ ++ (_ ++ (_ ++ (_ ++ (_ ++ '\x7d' :: rest))))))) = _
    rw [tokens?_opening rfl, tokens?_quote, tokens?_colon,
      hmembers.1 _ _ _ (closes_writeMembers hclose), tokens?_writeMembers hmembers.2 hclose,
      tokens?_closing rfl]
    simp [Option.map_map, Function.comp_def]

/-- The text of a legible value is cut into its tokens. -/
theorem Legible.written (h : j.Legible) : Written j := by
  induction h with
  | null => exact written_null
  | bool b => exact written_bool b
  | whole h => exact written_whole h
  | real h => exact written_real h
  | string s => exact written_string s
  | array _ ih => exact written_array ih
  | object _ ih => exact written_object ih

/-- A value is read back from its text, down to the depth that is read. -/
theorem Legible.parse?_write (h : j.Legible) (style : Style) :
    parse? (j.write style 0) = some (j.truncate maxDepth) := by
  have htokens : tokens? (j.write style 0).toList = some j.tokens := by
    have hwritten := h.written style 0 [] closes_nil
    rwa [List.append_nil, tokens?, Option.map_some, List.append_nil] at hwritten
  have hread := h.read maxDepth []
  rw [List.append_nil] at hread
  obtain ⟨r, hr, hvalue⟩ := Option.map_eq_some_iff.mp hread
  rw [parse?, htokens]
  change (value? maxDepth j.tokens >>= _) = _
  rw [hr]
  change (if r.val.2.isEmpty = true then some r.val.1 else none) = _
  rw [hvalue]
  rfl

end Texts

end Peephole.Json
