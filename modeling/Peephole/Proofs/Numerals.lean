import Peephole.Proofs.Lexing

/-!
# Numbers as text

A `Numeral` is a row of digits, perhaps with a point and further digits after it. It is cut off a
text as one word (`Numeral.cuts_text`): with a point it is a float, and without one an integer,
which may be too large to be a token. With an `Exponent` after it, it is always a float
(`Numeral.isFirst_float`).

A number that is neither infinite nor not-a-number is written as a numeral after an optional minus
(`toList_render_plain`); infinities and not-a-number are written as words. `numberPieces` are the
words of the text of a number.
-/

set_option autoImplicit false
set_option relaxedAutoImplicit false

namespace Peephole

open Source Source.Lexer

namespace Decimal

/-! ### Numerals -/

namespace Numeral

/-- The word that a numeral is read as. -/
def word? (n : Numeral) : Option Token :=
  match n.fraction with
  | some _ => some (.float (nearest (digitsValue n.digits) (-n.places)))
  | none => if digitsValue n.digits ≤ maxInt then some (.int (digitsValue n.digits)) else none

end Numeral

/-- The value of an exponent in program text. -/
def Exponent.value (x : Exponent) : Int :=
  if x.sign = ['-'] then -(Nat.ofDigitChars 10 x.digits 0 : Int)
  else Nat.ofDigitChars 10 x.digits 0

section Floats

variable {cs rest : List Char}

theorem Exponent.exponentValue_text (x : Exponent) : exponentValue x.text = x.value := by
  obtain ⟨marker, sign, digits, -, hsign, hne, hdigits⟩ := x
  rcases hsign with rfl | rfl | rfl
  · cases digits with
    | nil => exact absurd rfl hne
    | cons d digits =>
      -- Digits without a sign do not begin with one.
      have hd := hdigits d List.mem_cons_self
      unfold exponentValue
      split
      · next heq =>
        cases heq
        exact absurd hd (by decide)
      · next heq =>
        cases heq
        exact absurd hd (by decide)
      · next heq =>
        cases heq
        rfl
      · next heq => cases heq
  · rfl
  · rfl

/-- A row of characters is taken off the front of a text that does not continue it. -/
theorem takeWhile_append_of_ends {p : Char → Bool} (hcs : ∀ x ∈ cs, p x = true)
    (hrest : ∀ x, rest.head? = some x → p x = false) : (cs ++ rest).takeWhile p = cs := by
  rw [List.takeWhile_append_of_pos hcs]
  cases rest with
  | nil => simp
  | cons x rest => rw [List.takeWhile_cons_of_neg (by simp [hrest x rfl]), List.append_nil]

end Floats

namespace Numeral

theorem ne_point_of_isDigit {c : Char} (h : isDigit c = true) : c ≠ '.' := by
  rintro rfl
  exact absurd h (by decide)

theorem filter_text (n : Numeral) : n.text.filter (· ≠ '.') = n.digits := by
  have hdigits {cs : List Char} (h : ∀ c ∈ cs, isDigit c = true) : cs.filter (· ≠ '.') = cs :=
    List.filter_eq_self.mpr fun c hc ↦ decide_eq_true (ne_point_of_isDigit (h c hc))
  rw [text, digits, List.filter_append, hdigits n.isDigit_whole]
  cases hfraction : n.fraction with
  | none => rfl
  | some fraction =>
    have hall := hdigits (n.isDigit_fraction fraction hfraction)
    simpa using hall

theorem places_eq (n : Numeral) : (n.text.dropWhile (· ≠ '.')).tail.length = n.places := by
  have hwhole : ∀ c ∈ n.whole, decide (c ≠ '.') = true := fun c hc ↦
    decide_eq_true (ne_point_of_isDigit (n.isDigit_whole c hc))
  rw [text, List.dropWhile_append_of_pos hwhole, places]
  cases n.fraction <;> simp

/-- The value of a float is read off its digits, its point and its exponent. -/
theorem floatValue_text (n : Numeral) (x : Option Exponent) :
    floatValue (n.text ++ x.elim [] Exponent.text) =
      nearest (digitsValue n.digits) (x.elim 0 Exponent.value - n.places) := by
  have hnumeral : (n.text ++ x.elim [] Exponent.text).takeWhile (fun c ↦ c.isDigit || c = '.') =
      n.text := by
    refine takeWhile_append_of_ends (fun c hc ↦ ?_) fun c hc ↦ ?_
    · simpa [isDigit_eq] using n.isDigit_or_point c hc
    · cases x with
      | none => cases hc
      | some x =>
        cases hc
        obtain ⟨-, hdigit, hpoint⟩ := x.isWordChar_marker
        simpa [isDigit_eq] using ⟨hdigit, hpoint⟩
  have hexponent : exponentValue (x.elim [] Exponent.text) = x.elim 0 Exponent.value := by
    cases x with
    | none => rfl
    | some x => exact x.exponentValue_text
  unfold floatValue
  dsimp only
  rw [hnumeral, List.drop_left, filter_text, places_eq, hexponent]

/-- A numeral with a point, an exponent or both is a float. -/
theorem isFirst_float (n : Numeral) (x : Option Exponent)
    (h : n.fraction.isSome = true ∨ x.isSome = true) {rest : List Char} (hend : Ends rest) :
    (Piece.token (.float (nearest (digitsValue n.digits)
      (x.elim 0 Exponent.value - n.places)))).IsFirst (n.text ++ x.elim [] Exponent.text) rest := by
  have hfirst := (wins_float ⟨n, x, h, rfl⟩ hend).isFirst
  rwa [Kind.piece, floatValue_text] at hfirst

/-- A numeral is cut off a text as one word. -/
theorem cuts_text (n : Numeral) : Cuts n.text [n.word?] := by
  intro rest hrest
  cases hfraction : n.fraction with
  | none =>
    cases hwhole : n.whole with
    | nil => exact absurd hwhole n.whole_ne_nil
    | cons c whole =>
      have hdigits := n.isDigit_whole
      rw [hwhole, List.forall_mem_cons] at hdigits
      have hcut := cut_whole hdigits.1 hdigits.2 hrest
      simpa [text, word?, digits, hfraction, hwhole] using hcut
  | some fraction =>
    have hcut := (n.isFirst_float none (.inl (hfraction ▸ rfl)) hrest).cut
    simpa [word?, hfraction, Piece.words] using hcut

end Numeral

/-! ### The numeral of a number -/

/-- There are digits, and they are digits. -/
def Digits.IsProper (d : Digits) : Prop :=
  d.digits ≠ [] ∧ ∀ c ∈ d.digits, isDigit c = true

theorem isDigit_of_mem_toDigits {n : Nat} {c : Char} (h : c ∈ Nat.toDigits 10 n) :
    isDigit c = true :=
  (isDigit_eq c).trans (Nat.isDigit_of_mem_toDigits (by decide) (by decide) h)

theorem Digits.isProper_ofScaled (coefficient : Nat) (k : Int) :
    (ofScaled coefficient k).IsProper := by
  unfold ofScaled IsProper
  dsimp only
  split
  · exact ⟨List.cons_ne_nil _ _, List.forall_mem_singleton.mpr rfl⟩
  · next hne =>
    refine ⟨hne, fun c hc ↦ ?_⟩
    have hmem := List.dropWhile_sublist _ |>.subset (List.mem_reverse.mp hc)
    exact isDigit_of_mem_toDigits (List.mem_reverse.mp hmem)

theorem Binary.isProper_shortest (tie : Tie) (x : Binary) : (x.shortest tie).IsProper := by
  unfold shortest
  split
  · exact ⟨List.cons_ne_nil _ _, List.forall_mem_singleton.mpr rfl⟩
  · exact Digits.isProper_ofScaled _ _

theorem isDigit_of_mem_replicate {k : Nat} {c : Char} (h : c ∈ List.replicate k '0') :
    isDigit c = true := by
  rw [List.eq_of_mem_replicate h]
  decide

/-- The numeral in which digits are written without an exponent. -/
def Digits.numeral (d : Digits) (h : d.IsProper) : Numeral :=
  if d.exponent < 0 then
    { whole := ['0']
      fraction := some (List.replicate (-d.exponent - 1).toNat '0' ++ d.digits)
      whole_ne_nil := List.cons_ne_nil _ _
      isDigit_whole := List.forall_mem_singleton.mpr rfl
      isDigit_fraction := fun _ hcs ↦ Option.some.inj hcs ▸
        List.forall_mem_append.mpr ⟨fun _ hc ↦ isDigit_of_mem_replicate hc, h.2⟩ }
  else if d.digits.length ≤ d.exponent.toNat + 1 then
    { whole := d.digits ++ List.replicate (d.exponent.toNat + 1 - d.digits.length) '0'
      fraction := none
      whole_ne_nil := List.append_ne_nil_of_left_ne_nil h.1 _
      isDigit_whole := List.forall_mem_append.mpr ⟨h.2, fun _ hc ↦ isDigit_of_mem_replicate hc⟩
      isDigit_fraction := nofun }
  else
    { whole := d.digits.take (d.exponent.toNat + 1)
      fraction := some (d.digits.drop (d.exponent.toNat + 1))
      whole_ne_nil := fun hnil ↦ (List.take_eq_nil_iff.mp hnil).elim (Nat.succ_ne_zero _) h.1
      isDigit_whole := fun c hc ↦ h.2 c (List.mem_of_mem_take hc)
      isDigit_fraction := fun _ hcs ↦ Option.some.inj hcs ▸
        fun c hc ↦ h.2 c (List.mem_of_mem_drop hc) }

theorem Digits.toList_positional (d : Digits) (h : d.IsProper) :
    (d.positional "").toList = (d.numeral h).text := by
  unfold positional numeral
  dsimp only
  split
  · simp [Numeral.text]
  split <;> simp [Numeral.text]

/-- The numeral of a finite magnitude. -/
def Binary.numeral (x : Binary) : Numeral :=
  (x.shortest Layout.plain.tie).numeral (x.isProper_shortest _)

/-- Whether the text of a number begins with a minus. -/
def isNegative (x : Float) : Bool :=
  !x.isNaN && x.toBits.toNat >>> 63 = 1

/-- The text of a number after its sign. -/
def magnitudeText (x : Float) : List Char :=
  if x.isNaN then "NaN".toList
  else if x.isInf then "inf".toList
  else (Binary.ofFloat x).numeral.text

/-- The word of the text of a number after its sign. -/
def magnitudeWord? (x : Float) : Option Token :=
  if x.isNaN then some (.identifier "NaN")
  else if x.isInf then some (.identifier "inf")
  else (Binary.ofFloat x).numeral.word?

/-- The words of the text of a number. -/
def numberPieces (x : Float) : List (Option Token) :=
  if isNegative x then [some (.mark .minus), magnitudeWord? x] else [magnitudeWord? x]

theorem toList_render_plain (x : Float) : (Layout.plain.render x).toList =
    (if isNegative x then ['-'] else []) ++ magnitudeText x := by
  unfold Layout.render isNegative magnitudeText
  cases x.isNaN with
  | true => simp [Layout.plain]
  | false =>
    cases x.isInf with
    | true => by_cases hneg : x.toBits.toNat >>> 63 = 1 <;> simp [hneg, Layout.plain]
    | false =>
      have hbody := Digits.toList_positional _ ((Binary.ofFloat x).isProper_shortest .upward)
      by_cases hneg : x.toBits.toNat >>> 63 = 1 <;>
        simp [hneg, Layout.plain, hbody, Binary.numeral]

theorem exists_magnitudeText_eq (x : Float) :
    ∃ c cs, magnitudeText x = c :: cs ∧ isWordChar c = true := by
  unfold magnitudeText
  split
  · exact ⟨'N', ['a', 'N'], rfl, by decide⟩
  split
  · exact ⟨'i', ['n', 'f'], rfl, by decide⟩
  · obtain ⟨c, cs, htext, hc⟩ := (Binary.ofFloat x).numeral.exists_text_eq
    exact ⟨c, cs, htext, by rw [isWordChar, hc, Bool.or_true]⟩

theorem cuts_magnitudeText (x : Float) : Cuts (magnitudeText x) [magnitudeWord? x] := by
  unfold magnitudeText magnitudeWord?
  split
  · exact cuts_name (by decide)
  split
  · exact cuts_name (by decide)
  · exact Numeral.cuts_text _

/-- A number is cut off a text as its words. -/
theorem cuts_number (x : Float) : Cuts (Layout.plain.render x).toList (numberPieces x) := by
  intro rest hrest
  have hmagnitude := cuts_magnitudeText x rest hrest
  rw [toList_render_plain, numberPieces]
  cases isNegative x with
  | false => exact hmagnitude
  | true => exact (cut_mark rfl (by decide)).trans (congrArg _ hmagnitude)

end Decimal

end Peephole
