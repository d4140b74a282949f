import Mathlib.Data.List.Chain
import Peephole.Proofs.Languages

/-!
# The shapes of pieces

`Kind.Shape` says in plain words what the pieces of program text look like: rows of blanks and
comments, words, numbers, strings, marks with their spellings, and comments and strings that are
never closed. The patterns of the table have these texts and no others (`shape_of_matches`,
`exists_rule_of_shape`). In particular the pattern that counts stars has the comments that end at
their first `*/` (`matches_blockComment`).
-/

set_option autoImplicit false
set_option relaxedAutoImplicit false

namespace Peephole

namespace Source

namespace Mark

/-- The marks that are spelled like identifiers. -/
def keywords : List Mark :=
  [version, inclusion, qubit, ctrl, negctrl, qif, begin, close, pi]

/-- The keyword with a spelling. -/
def keyword? (word : String) : Option Mark :=
  keywords.find? (·.text = word)

/-- The characters that are marks. -/
def symbols : List Char :=
  ['π', '+', '-', '*', '/', '@', '(', ')', '[', ']', ';', ',']

end Mark

namespace Lexer

/-! ### Characters -/

def isBlank (c : Char) : Bool :=
  c = ' ' || c = '\t' || c = '\r' || c = '\n'

def isDigit (c : Char) : Bool :=
  '0' ≤ c && c ≤ '9'

def isLetter (c : Char) : Bool :=
  ('a' ≤ c && c ≤ 'z') || ('A' ≤ c && c ≤ 'Z') || c = '_'

/-- Whether a character can stand in an identifier after its first one. -/
def isWordChar (c : Char) : Bool :=
  isLetter c || isDigit c

section Characters

variable {c : Char}

theorem has_blank : blank.has c = isBlank c := by
  rw [blank, CharSet.has_of, Bool.eq_iff_iff]
  simp [isBlank, or_assoc]

theorem has_digit : digit.has c = isDigit c := by
  simp [digit, CharSet.has, isDigit]

theorem eq_underscore_iff : ('_' ≤ c && c ≤ '_') = decide (c = '_') := by
  rw [Bool.eq_iff_iff, Bool.and_eq_true, decide_eq_true_eq, decide_eq_true_eq, decide_eq_true_eq]
  exact ⟨fun h ↦ Char.le_antisymm h.2 h.1, fun h ↦ h ▸ ⟨Char.le_refl _, Char.le_refl _⟩⟩

theorem has_letter : letter.has c = isLetter c := by
  simp [letter, CharSet.has, isLetter, eq_underscore_iff, Bool.or_assoc]

theorem has_wordChar : wordChar.has c = isWordChar c := by
  simp only [wordChar, CharSet.has, isWordChar, isLetter, isDigit, List.any_cons, List.any_nil,
    eq_underscore_iff, Bool.bne_false, Bool.or_false, Bool.or_assoc]
  rw [Bool.or_comm (decide (c = '_'))]

/-- The characters that stand for themselves are neither letters nor digits. -/
theorem not_isWordChar_of_mem (h : c ∈ [' ', '\t', '\r', '\n'] ++ Mark.symbols) :
    isWordChar c = false := by
  have hall : ([' ', '\t', '\r', '\n'] ++ Mark.symbols).all (!isWordChar ·) = true := by decide
  exact Bool.not_eq_true' _ ▸ List.all_eq_true.mp hall c h

theorem isBlank_iff : isBlank c = true ↔ c ∈ [' ', '\t', '\r', '\n'] := by
  simp [isBlank, or_assoc]

theorem not_isWordChar_of_isBlank (h : isBlank c = true) : isWordChar c = false :=
  not_isWordChar_of_mem (List.mem_append_left _ (isBlank_iff.mp h))

theorem not_isWordChar_of_isSymbol (h : c ∈ Mark.symbols) : isWordChar c = false :=
  not_isWordChar_of_mem (List.mem_append_right _ h)

theorem not_isBlank_of_isSymbol (h : c ∈ Mark.symbols) : isBlank c = false := by
  have hall : Mark.symbols.all (!isBlank ·) = true := by decide
  exact Bool.not_eq_true' _ ▸ List.all_eq_true.mp hall c h

theorem isWordChar_of_isLetter (h : isLetter c = true) : isWordChar c = true := by
  rw [isWordChar, h, Bool.true_or]

theorem isWordChar_of_isDigit (h : isDigit c = true) : isWordChar c = true := by
  rw [isWordChar, h, Bool.or_true]

theorem isDigit_of_isLetter (h : isLetter c = true) : isDigit c = false := by
  rw [Bool.eq_false_iff]
  intro hdigit
  simp only [isDigit, isLetter, Bool.and_eq_true, Bool.or_eq_true, decide_eq_true_eq,
    Char.le_def, UInt32.le_iff_toNat_le] at h hdigit
  rcases h with (h | h) | rfl
  · have := Nat.le_trans h.1 hdigit.2
    exact absurd this (by decide)
  · have := Nat.le_trans h.1 hdigit.2
    exact absurd this (by decide)
  · exact absurd hdigit.2 (by decide)

end Characters

end Lexer

open Lexer Pattern

/-! ### Words -/

/-- A row of letters and digits that begins with a letter. -/
def IsWord : List Char → Prop
  | [] => False
  | c :: cs => isLetter c = true ∧ ∀ x ∈ cs, isWordChar x = true

instance : DecidablePred IsWord
  | [] => inferInstanceAs (Decidable False)
  | c :: cs => decidable_of_iff (isLetter c = true ∧ cs.all isWordChar = true)
      (and_congr_right fun _ ↦ List.all_eq_true)

section Words

variable {w : List Char}

theorem matches_word : Matches word w ↔ IsWord w := by
  rw [word, matches_seq]
  constructor
  · rintro ⟨_, v, rfl, hfirst, hrest⟩
    obtain ⟨c, hc, rfl⟩ := matches_one.mp hfirst
    simp only [matches_many_one, has_wordChar] at hrest
    exact ⟨has_letter ▸ hc, hrest⟩
  · intro h
    cases w with
    | nil => exact h.elim
    | cons c cs =>
      exact ⟨[c], cs, rfl, .one (has_letter ▸ h.1),
        matches_many_one.mpr fun x hx ↦ has_wordChar ▸ h.2 x hx⟩

/-- A mark is a keyword or a single character. -/
theorem Mark.keyword_or_symbol (m : Mark) :
    (m ∈ Mark.keywords ∧ IsWord m.text.toList) ∨ ∃ c ∈ Mark.symbols, m.text.toList = [c] := by
  cases m <;> first
    | exact .inl (by decide)
    | exact .inr ⟨_, by decide, rfl⟩

end Words

/-! ### Comments and strings -/

/-- A text that ends at its first `*/`. -/
def ClosesFirst (w : List Char) : Prop :=
  ∃ body, ¬ ['*', '/'] <:+: body ∧ w = body ++ ['*', '/']

section Comments

variable {c : Char} {p : Pattern} {w : List Char}

theorem matches_many_except :
    Matches (.many (.one (.except [c]))) w ↔ c ∉ w := by
  simp only [matches_many_one, CharSet.has_except, List.mem_singleton, decide_eq_true_eq]
  exact ⟨fun h hc ↦ h c hc rfl, fun h x hx heq ↦ h (heq ▸ hx)⟩

theorem matches_literal_seq {text : String} :
    Matches (.seq (literal text) p) w ↔ ∃ v, Matches p v ∧ w = text.toList ++ v := by
  simp only [matches_seq, matches_literal]
  constructor
  · rintro ⟨_, v, rfl, rfl, hv⟩
    exact ⟨v, hv, rfl⟩
  · rintro ⟨v, hv, rfl⟩
    exact ⟨_, v, rfl, rfl, hv⟩

theorem matches_char_seq : Matches (.seq (char c) p) w ↔ ∃ v, Matches p v ∧ w = c :: v := by
  simp only [matches_seq, matches_char]
  constructor
  · rintro ⟨_, v, rfl, rfl, hv⟩
    exact ⟨v, hv, rfl⟩
  · rintro ⟨v, hv, rfl⟩
    exact ⟨_, v, rfl, rfl, hv⟩

theorem matches_lineComment :
    Matches lineComment w ↔ ∃ body, '\n' ∉ body ∧ w = '/' :: '/' :: body := by
  simp only [lineComment, matches_literal_seq, matches_many_except]
  rfl

theorem matches_unclosedString :
    Matches unclosedString w ↔ ∃ content, '"' ∉ content ∧ w = '"' :: content := by
  simp only [unclosedString, matches_char_seq, matches_many_except]

theorem matches_quoted :
    Matches quoted w ↔ ∃ content, '"' ∉ content ∧ w = '"' :: (content ++ ['"']) := by
  rw [quoted, matches_char_seq]
  simp only [matches_seq, matches_many_except, matches_char]
  constructor
  · rintro ⟨_, ⟨content, _, rfl, hcontent, rfl⟩, rfl⟩
    exact ⟨content, hcontent, rfl⟩
  · rintro ⟨content, hcontent, rfl⟩
    exact ⟨_, ⟨content, _, rfl, hcontent, rfl⟩, rfl⟩

/-- The end of a comment is found at its first character or later. -/
theorem closed_cons :
    ['*', '/'] <:+: c :: w ↔ (c = '*' ∧ ∃ v, w = '/' :: v) ∨ ['*', '/'] <:+: w := by
  rw [List.infix_cons_iff, List.cons_prefix_cons]
  refine or_congr_left (and_congr ⟨Eq.symm, Eq.symm⟩ ?_)
  constructor
  · rintro ⟨v, rfl⟩
    exact ⟨v, rfl⟩
  · rintro ⟨v, rfl⟩
    exact ⟨v, rfl⟩

theorem not_closesFirst_nil : ¬ ClosesFirst [] := by
  rintro ⟨body, -, heq⟩
  exact List.append_ne_nil_of_right_ne_nil body (List.cons_ne_nil _ _) heq.symm

theorem closesFirst_cons : ClosesFirst (c :: w) ↔
    (c = '*' ∧ w = ['/']) ∨ ¬ (c = '*' ∧ ∃ v, w = '/' :: v) ∧ ClosesFirst w := by
  constructor
  · rintro ⟨body, hbody, heq⟩
    cases body with
    | nil =>
      cases heq
      exact .inl ⟨rfl, rfl⟩
    | cons x body =>
      obtain ⟨rfl, rfl⟩ := List.cons.inj heq
      rw [closed_cons, not_or] at hbody
      refine .inr ⟨?_, body, hbody.2, rfl⟩
      rintro ⟨rfl, v, hv⟩
      cases body with
      | nil => cases hv
      | cons y body =>
        cases hv
        exact hbody.1 ⟨rfl, body, rfl⟩
  · rintro (⟨rfl, rfl⟩ | ⟨hopen, body, hbody, rfl⟩)
    · exact ⟨[], by decide, rfl⟩
    · refine ⟨c :: body, ?_, rfl⟩
      rw [closed_cons, not_or]
      refine ⟨?_, hbody⟩
      rintro ⟨rfl, v, rfl⟩
      exact hopen ⟨rfl, v ++ ['*', '/'], rfl⟩

/-- A text that ends at its first `*/` does not go on after it. -/
theorem closesFirst_append {more : List Char} (h : ClosesFirst w) (h' : ClosesFirst (w ++ more)) :
    more = [] := by
  induction w with
  | nil => exact absurd h not_closesFirst_nil
  | cons c w ih =>
    rw [List.cons_append] at h'
    rcases closesFirst_cons.mp h with ⟨rfl, rfl⟩ | ⟨hopen, hrest⟩
    · rcases closesFirst_cons.mp h' with ⟨-, heq⟩ | ⟨hopen, -⟩
      · exact (List.cons.inj heq).2
      · exact absurd ⟨rfl, more, rfl⟩ hopen
    · rcases closesFirst_cons.mp h' with ⟨rfl, heq⟩ | ⟨-, hrest'⟩
      · cases w with
        | nil => exact absurd hrest not_closesFirst_nil
        | cons x w =>
          cases (List.cons.inj heq).1
          exact absurd ⟨rfl, w, rfl⟩ hopen
      · exact ih hrest hrest'

/-- What a comment asks for, while its last character is no star. -/
def inComment : Pattern :=
  seq (many (one (.except ['*']))) (seq (repeated (char '*'))
    (seq (many (seq (one (.except ['/', '*'])) (seq (many (one (.except ['*'])))
      (repeated (char '*'))))) (char '/')))

/-- What a comment asks for after a star. -/
def afterStar : Pattern :=
  seq (many (char '*')) (seq (many (seq (one (.except ['/', '*']))
    (seq (many (one (.except ['*']))) (repeated (char '*'))))) (char '/'))

theorem has_except_star : (CharSet.except ['*']).has c = decide (c ≠ '*') := by
  rw [CharSet.has_except]
  simp

theorem matches_inComment_cons :
    Matches inComment (c :: w) ↔ if c = '*' then Matches afterStar w else Matches inComment w := by
  rw [← matches_after]
  by_cases hc : c = '*'
  · rw [if_pos hc, hc, show inComment.after '*' = afterStar by decide]
  · have hafter : inComment.after c = inComment := by
      simp [inComment, after, repeated, char, isNullable, has_except_star, CharSet.has_of, hc,
        followedBy, orElse]
    rw [if_neg hc, hafter]

theorem matches_afterStar_cons :
    Matches afterStar (c :: w) ↔
      if c = '*' then Matches afterStar w else if c = '/' then w = [] else Matches inComment w := by
  rw [← matches_after]
  by_cases hc : c = '*'
  · rw [if_pos hc, hc, show afterStar.after '*' = afterStar by decide]
  by_cases hslash : c = '/'
  · rw [if_neg hc, if_pos hslash, hslash, show afterStar.after '/' = .empty by decide,
      matches_empty]
  · have hafter : afterStar.after c = seq (seq (seq (many (one (.except ['*'])))
        (repeated (char '*'))) (many (seq (one (.except ['/', '*']))
          (seq (many (one (.except ['*']))) (repeated (char '*')))))) (char '/') := by
      simp [afterStar, after, repeated, char, isNullable, CharSet.has_of, CharSet.has_except, hc,
        hslash, followedBy, orElse]
    rw [if_neg hc, if_neg hslash, hafter, matches_seq_assoc, matches_seq_assoc, inComment]

/-- The stars are counted in the right way: what is left of a comment ends at its first `*/`. -/
theorem matches_inComment_and_afterStar (w : List Char) :
    (Matches inComment w ↔ ClosesFirst w) ∧ (Matches afterStar w ↔ ClosesFirst ('*' :: w)) := by
  induction w with
  | nil =>
    have hin : ¬ Matches inComment [] := fun h ↦ absurd (isNullable_iff.mpr h) (by decide)
    have hafter : ¬ Matches afterStar [] := fun h ↦ absurd (isNullable_iff.mpr h) (by decide)
    have hstar : ¬ ClosesFirst ['*'] := by simp [closesFirst_cons, not_closesFirst_nil]
    exact ⟨iff_of_false hin not_closesFirst_nil, iff_of_false hafter hstar⟩
  | cons c w ih =>
    rw [matches_inComment_cons, matches_afterStar_cons, ih.1, ih.2]
    by_cases hc : c = '*'
    · subst hc
      simp [closesFirst_cons (c := '*') (w := '*' :: w)]
    by_cases hslash : c = '/'
    · subst hslash
      simp [closesFirst_cons]
    · simp [closesFirst_cons, hc, hslash]

theorem matches_blockComment :
    Matches blockComment w ↔ ∃ v, ClosesFirst v ∧ w = '/' :: '*' :: v := by
  have hpattern : blockComment = seq (literal "/*") inComment := rfl
  simp only [hpattern, matches_literal_seq, (matches_inComment_and_afterStar _).1]
  rfl

/-- What an open comment asks for after a star: it has no slash next. -/
def openAfterStar : Pattern :=
  either (seq (seq (seq (many (char '*')) (one (.except ['/', '*'])))
    (many (either (one (.except ['*'])) (seq (repeated (char '*')) (one (.except ['/', '*']))))))
    (many (char '*'))) (many (char '*'))

/-- What an open comment asks for, while its last character is no star. -/
def inOpenComment : Pattern :=
  seq (many (either (one (.except ['*'])) (seq (repeated (char '*')) (one (.except ['/', '*'])))))
    (many (char '*'))

theorem matches_inOpenComment_cons : Matches inOpenComment (c :: w) ↔
    if c = '*' then Matches openAfterStar w else Matches inOpenComment w := by
  rw [← matches_after]
  by_cases hc : c = '*'
  · rw [if_pos hc, hc, show inOpenComment.after '*' = openAfterStar by decide]
  · have hafter : inOpenComment.after c = inOpenComment := by
      simp [inOpenComment, after, repeated, char, isNullable, has_except_star, CharSet.has_of, hc,
        followedBy, orElse]
    rw [if_neg hc, hafter]

theorem matches_openAfterStar_cons : Matches openAfterStar (c :: w) ↔
    if c = '*' then Matches openAfterStar w else c ≠ '/' ∧ Matches inOpenComment w := by
  rw [← matches_after]
  by_cases hc : c = '*'
  · rw [if_pos hc, hc, show openAfterStar.after '*' = openAfterStar by decide]
  by_cases hslash : c = '/'
  · rw [if_neg hc, hslash, show openAfterStar.after '/' = .never by decide]
    exact iff_of_false not_matches_never fun h ↦ h.1 rfl
  · have hafter : openAfterStar.after c = inOpenComment := by
      simp [openAfterStar, inOpenComment, after, repeated, char, isNullable, CharSet.has_of,
        CharSet.has_except, hc, hslash, followedBy, orElse]
    rw [if_neg hc, hafter, and_iff_right hslash]

theorem matches_inOpenComment_and_openAfterStar (w : List Char) :
    (Matches inOpenComment w ↔ ¬ ['*', '/'] <:+: w) ∧
      (Matches openAfterStar w ↔ ¬ ['*', '/'] <:+: '*' :: w) := by
  induction w with
  | nil =>
    exact ⟨iff_of_true (isNullable_iff.mp (by decide)) (by decide),
      iff_of_true (isNullable_iff.mp (by decide)) (by decide)⟩
  | cons c w ih =>
    rw [matches_inOpenComment_cons, matches_openAfterStar_cons, ih.1, ih.2]
    by_cases hc : c = '*'
    · subst hc
      simp [closed_cons (c := '*') (w := '*' :: w)]
    · simp [closed_cons, hc]

theorem matches_unclosedComment :
    Matches unclosedComment w ↔ ∃ v, ¬ ['*', '/'] <:+: v ∧ w = '/' :: '*' :: v := by
  have hpattern : unclosedComment = seq (literal "/*") inOpenComment := rfl
  simp only [hpattern, matches_literal_seq, (matches_inOpenComment_and_openAfterStar _).1]
  rfl

end Comments

end Source

/-! ### Numbers -/

namespace Decimal

open Source Lexer Pattern

/-- Digits, with or without a point among them. -/
structure Numeral where
  whole : List Char
  fraction : Option (List Char)
  whole_ne_nil : whole ≠ []
  isDigit_whole : ∀ c ∈ whole, isDigit c = true
  isDigit_fraction : ∀ cs ∈ fraction, ∀ c ∈ cs, isDigit c = true

namespace Numeral

def text (n : Numeral) : List Char :=
  n.whole ++ n.fraction.elim [] ('.' :: ·)

/-- The digits without the point. -/
def digits (n : Numeral) : List Char :=
  n.whole ++ n.fraction.getD []

/-- The number of digits after the point. -/
def places (n : Numeral) : Nat :=
  (n.fraction.getD []).length

/-- A numeral begins with a digit. -/
theorem exists_text_eq (n : Numeral) : ∃ c cs, n.text = c :: cs ∧ isDigit c = true := by
  obtain ⟨whole, fraction, hne, hwhole, -⟩ := n
  cases whole with
  | nil => exact absurd rfl hne
  | cons c whole => exact ⟨c, _, rfl, hwhole c List.mem_cons_self⟩

theorem isDigit_or_point (n : Numeral) : ∀ c ∈ n.text, isDigit c = true ∨ c = '.' := by
  obtain ⟨whole, fraction, -, hwhole, hfraction⟩ := n
  refine List.forall_mem_append.mpr ⟨fun c hc ↦ .inl (hwhole c hc), ?_⟩
  cases fraction with
  | none => exact List.forall_mem_nil _
  | some fraction =>
    exact List.forall_mem_cons.mpr ⟨.inr rfl, fun c hc ↦ .inl (hfraction fraction rfl c hc)⟩

end Numeral

/-- An exponent in program text. -/
structure Exponent where
  marker : Char
  sign : List Char
  digits : List Char
  marker_eq : marker = 'e' ∨ marker = 'E'
  sign_eq : sign = [] ∨ sign = ['+'] ∨ sign = ['-']
  digits_ne_nil : digits ≠ []
  isDigit_digits : ∀ c ∈ digits, isDigit c = true

namespace Exponent

def text (x : Exponent) : List Char :=
  x.marker :: (x.sign ++ x.digits)

theorem isWordChar_marker (x : Exponent) :
    isWordChar x.marker = true ∧ isDigit x.marker = false ∧ x.marker ≠ '.' := by
  rcases x.marker_eq with h | h <;> rw [h] <;> decide

end Exponent

/-- A numeral with a point, an exponent or both. -/
def IsFloat (w : List Char) : Prop :=
  ∃ (n : Numeral) (x : Option Exponent), (n.fraction.isSome = true ∨ x.isSome = true) ∧
    w = n.text ++ x.elim [] Exponent.text

section Numbers

variable {w : List Char}

theorem matches_digits : Matches Lexer.digits w ↔ w ≠ [] ∧ ∀ c ∈ w, isDigit c = true := by
  simp only [Lexer.digits, matches_repeated_one, has_digit]

theorem matches_exponent : Matches Lexer.exponent w ↔ ∃ x : Exponent, w = x.text := by
  simp only [Lexer.exponent, matches_seq, matches_optional, matches_digits, matches_one,
    CharSet.has_of]
  constructor
  · rintro ⟨_, _, rfl, ⟨marker, hmarker, rfl⟩, sign, digits, rfl, hsign, hne, hdigits⟩
    have hmarker : marker = 'e' ∨ marker = 'E' := by simpa using hmarker
    have hsign : sign = [] ∨ sign = ['+'] ∨ sign = ['-'] := by
      rcases hsign with ⟨c, hc, rfl⟩ | rfl
      · have hc : c = '+' ∨ c = '-' := by simpa using hc
        rcases hc with rfl | rfl
        · exact .inr (.inl rfl)
        · exact .inr (.inr rfl)
      · exact .inl rfl
    exact ⟨⟨marker, sign, digits, hmarker, hsign, hne, hdigits⟩, rfl⟩
  · rintro ⟨⟨marker, sign, digits, hmarker, hsign, hne, hdigits⟩, rfl⟩
    refine ⟨[marker], sign ++ digits, rfl, ⟨marker, by simpa using hmarker, rfl⟩, sign, digits, rfl,
      ?_, hne, hdigits⟩
    rcases hsign with rfl | rfl | rfl
    · exact .inr rfl
    · exact .inl ⟨'+', by decide, rfl⟩
    · exact .inl ⟨'-', by decide, rfl⟩

theorem isFloat_of_pointFloat (h : Matches pointFloat w) : IsFloat w := by
  simp only [pointFloat, matches_seq, matches_optional, matches_digits, matches_char,
    matches_many_one, has_digit, matches_exponent] at h
  obtain ⟨whole, _, rfl, ⟨hne, hwhole⟩, _, _, rfl, rfl, fraction, _, rfl, hfraction, hx⟩ := h
  have hnumeral : ∀ cs ∈ some fraction, ∀ c ∈ cs, isDigit c = true :=
    fun _ hcs ↦ Option.some.inj hcs ▸ hfraction
  rcases hx with ⟨x, rfl⟩ | rfl
  · exact ⟨⟨whole, some fraction, hne, hwhole, hnumeral⟩, some x, .inl rfl, by simp [Numeral.text]⟩
  · exact ⟨⟨whole, some fraction, hne, hwhole, hnumeral⟩, none, .inl rfl, by simp [Numeral.text]⟩

theorem isFloat_of_exponentFloat (h : Matches exponentFloat w) : IsFloat w := by
  simp only [exponentFloat, matches_seq, matches_digits, matches_exponent] at h
  obtain ⟨whole, _, rfl, ⟨hne, hwhole⟩, x, rfl⟩ := h
  exact ⟨⟨whole, none, hne, hwhole, nofun⟩, some x, .inr rfl, by simp [Numeral.text]⟩

theorem matches_of_isFloat (h : IsFloat w) : Matches pointFloat w ∨ Matches exponentFloat w := by
  obtain ⟨⟨whole, fraction, hne, hwhole, hfraction⟩, x, hfloat, rfl⟩ := h
  cases fraction with
  | some fraction =>
    left
    simp only [pointFloat, matches_seq, matches_optional, matches_digits, matches_char,
      matches_many_one, has_digit, matches_exponent]
    refine ⟨whole, _, ?_, ⟨hne, hwhole⟩, ['.'], fraction ++ x.elim [] Exponent.text, rfl, rfl,
      fraction, _, rfl, hfraction fraction rfl, ?_⟩
    · simp [Numeral.text]
    · cases x with
      | none => exact .inr rfl
      | some x => exact .inl ⟨x, rfl⟩
  | none =>
    right
    obtain ⟨x, rfl⟩ := Option.isSome_iff_exists.mp (hfloat.resolve_left Bool.false_ne_true)
    simp only [exponentFloat, matches_seq, matches_digits, matches_exponent]
    exact ⟨whole, x.text, by simp [Numeral.text], ⟨hne, hwhole⟩, x, rfl⟩

/-- In the text of a float, a digit or a point is followed by a letter, a digit or a point. -/
def Continues (c d : Char) : Prop :=
  isDigit c = true ∨ c = '.' → isWordChar d = true ∨ d = '.'

theorem isChain_of_forall (h : ∀ c ∈ w, isDigit c = true ∨ c = '.') : w.IsChain Continues := by
  have hall : w.Pairwise Continues := List.pairwise_of_forall_mem_list fun _ _ d hd _ ↦
    (h d hd).imp_left isWordChar_of_isDigit
  exact hall.isChain

theorem Exponent.isChain_text (x : Exponent) : x.text.IsChain Continues := by
  have hdigits : x.digits.IsChain Continues :=
    isChain_of_forall fun c hc ↦ .inl (x.isDigit_digits c hc)
  have hsign : x.sign.IsChain Continues := by
    rcases x.sign_eq with h | h | h <;> rw [h]
    · exact .nil
    · exact .singleton _
    · exact .singleton _
  refine List.isChain_cons.mpr ⟨fun c _ hmarker ↦ ?_, List.isChain_append.mpr ⟨hsign, hdigits, ?_⟩⟩
  · obtain ⟨-, hdigit, hpoint⟩ := x.isWordChar_marker
    exact hmarker.elim (fun h ↦ absurd h (Bool.eq_false_iff.mp hdigit)) (absurd · hpoint)
  · exact fun _ _ d hd _ ↦
      .inl (isWordChar_of_isDigit (x.isDigit_digits d (List.mem_of_mem_head? hd)))

theorem IsFloat.isChain (h : IsFloat w) : w.IsChain Continues := by
  obtain ⟨n, x, -, rfl⟩ := h
  refine List.isChain_append.mpr ⟨isChain_of_forall n.isDigit_or_point, ?_, ?_⟩
  · cases x with
    | none => exact .nil
    | some x => exact x.isChain_text
  · rintro _ - c hc -
    cases x with
    | none => cases hc
    | some x =>
      cases hc
      exact .inl x.isWordChar_marker.1

theorem IsFloat.exists_not_isDigit (h : IsFloat w) : ∃ c ∈ w, isDigit c = false := by
  obtain ⟨⟨whole, fraction, _, _, _⟩, x, hfloat, rfl⟩ := h
  rcases hfloat with hfraction | hx
  · obtain ⟨fraction, rfl⟩ := Option.isSome_iff_exists.mp hfraction
    exact ⟨'.', by simp [Numeral.text], by decide⟩
  · obtain ⟨x, rfl⟩ := Option.isSome_iff_exists.mp hx
    exact ⟨x.marker, by simp [Exponent.text], x.isWordChar_marker.2.1⟩

/-- A float ends with a digit or a point. -/
theorem IsFloat.exists_last (h : IsFloat w) :
    ∃ v c, w = v ++ [c] ∧ (isDigit c = true ∨ c = '.') := by
  obtain ⟨n, x, -, rfl⟩ := h
  have hlast {v : List Char} (hne : v ≠ []) (hv : ∀ c ∈ v, isDigit c = true ∨ c = '.')
      (u : List Char) : ∃ u' c, u ++ v = u' ++ [c] ∧ (isDigit c = true ∨ c = '.') :=
    ⟨u ++ v.dropLast, v.getLast hne, by rw [List.append_assoc, List.dropLast_concat_getLast],
      hv _ (List.getLast_mem hne)⟩
  cases x with
  | none =>
    obtain ⟨c, cs, htext, -⟩ := n.exists_text_eq
    rw [Option.elim_none, List.append_nil]
    exact hlast (htext ▸ List.cons_ne_nil _ _) n.isDigit_or_point []
  | some x =>
    rw [Option.elim_some, Exponent.text, ← List.cons_append, ← List.append_assoc]
    exact hlast x.digits_ne_nil (fun c hc ↦ .inl (x.isDigit_digits c hc)) _

end Numbers

end Decimal

/-! ### Kinds -/

namespace Source

open Lexer Pattern Decimal

/-- The texts of a kind of piece. -/
inductive Lexer.Kind.Shape : Kind → List Char → Prop where
  | blanks {c : Char} {cs : List Char} (first : isBlank c = true)
      (others : ∀ x ∈ cs, isBlank x = true) : Shape .skipped (c :: cs)
  | lineComment {body : List Char} (oneLine : '\n' ∉ body) : Shape .skipped ('/' :: '/' :: body)
  | blockComment {v : List Char} (closed : ClosesFirst v) : Shape .skipped ('/' :: '*' :: v)
  | openComment {v : List Char} (unclosed : ¬ ['*', '/'] <:+: v) :
      Shape .unclosed ('/' :: '*' :: v)
  | string {content : List Char} (unquoted : '"' ∉ content) :
      Shape .string ('"' :: (content ++ ['"']))
  | openString {content : List Char} (unquoted : '"' ∉ content) : Shape .unclosed ('"' :: content)
  | keyword {m : Mark} {w : List Char} (isKeyword : m ∈ Mark.keywords)
      (spelling : m.text.toList = w) : Shape (.mark m) w
  | symbol {m : Mark} {c : Char} (isSymbol : c ∈ Mark.symbols) (spelling : m.text.toList = [c]) :
      Shape (.mark m) [c]
  | greekPi : Shape (.mark .pi) ['π']
  | integer {c : Char} {cs : List Char} (first : isDigit c = true)
      (others : ∀ x ∈ cs, isDigit x = true) : Shape .integer (c :: cs)
  | float {w : List Char} (isFloat : IsFloat w) : Shape .float w
  | word {w : List Char} (isWord : IsWord w) : Shape .identifier w

section Kinds

variable {k : Kind} {m : Mark} {c : Char} {cs w : List Char} {rule : TokenRule}

/-- The table spells the marks as they are written. -/
theorem spelled_of_mem : ∀ spelling ∈ spellings,
    spelling.1 = spelling.2.text ∨ spelling.2 = .pi ∧ spelling.1 = "π" := by
  decide

theorem mem_spellings (m : Mark) : (m.text, m) ∈ spellings := by
  cases m <;> decide

theorem shape_text (m : Mark) : (Kind.mark m).Shape m.text.toList := by
  rcases m.keyword_or_symbol with ⟨hm, -⟩ | ⟨c, hc, htext⟩
  · exact .keyword hm rfl
  · exact htext ▸ .symbol hc htext

/-- The texts of a rule have the shape of its kind. -/
theorem shape_of_matches (hrule : rule ∈ rules) (h : rule.pattern.Matches w) :
    rule.kind.Shape w := by
  rw [rules, List.mem_append, List.mem_map] at hrule
  rcases hrule with hrule | ⟨spelling, hspelling, rfl⟩
  · simp only [List.mem_cons, List.not_mem_nil, or_false] at hrule
    rcases hrule with rfl | rfl | rfl | rfl | rfl | rfl | rfl | rfl | rfl | rfl
    · simp only [matches_repeated_one, has_blank] at h
      obtain ⟨c, cs, rfl⟩ := List.exists_cons_of_ne_nil h.1
      exact .blanks (List.forall_mem_cons.mp h.2).1 (List.forall_mem_cons.mp h.2).2
    · obtain ⟨body, hbody, rfl⟩ := matches_lineComment.mp h
      exact .lineComment hbody
    · obtain ⟨v, hv, rfl⟩ := matches_blockComment.mp h
      exact .blockComment hv
    · exact .float (isFloat_of_pointFloat h)
    · exact .float (isFloat_of_exponentFloat h)
    · obtain ⟨hne, hdigits⟩ := matches_digits.mp h
      obtain ⟨c, cs, rfl⟩ := List.exists_cons_of_ne_nil hne
      exact .integer (List.forall_mem_cons.mp hdigits).1 (List.forall_mem_cons.mp hdigits).2
    · obtain ⟨content, hcontent, rfl⟩ := matches_quoted.mp h
      exact .string hcontent
    · exact .word (matches_word.mp h)
    · obtain ⟨v, hv, rfl⟩ := matches_unclosedComment.mp h
      exact .openComment hv
    · obtain ⟨content, hcontent, rfl⟩ := matches_unclosedString.mp h
      exact .openString hcontent
  · rw [matches_literal.mp h]
    rcases spelled_of_mem spelling hspelling with heq | ⟨hpi, heq⟩
    · rw [heq]
      exact shape_text spelling.2
    · rw [heq, hpi]
      exact .greekPi

theorem exists_rule_of_shape (h : k.Shape w) :
    ∃ rule ∈ rules, rule.kind = k ∧ rule.pattern.Matches w := by
  have hspelled (text : String) (m : Mark) (hmem : (text, m) ∈ spellings) :
      ∃ rule ∈ rules, rule.kind = .mark m ∧ rule.pattern.Matches text.toList :=
    ⟨_, List.mem_append_right _ (List.mem_map_of_mem hmem), rfl, matches_literal.mpr rfl⟩
  cases h with
  | blanks hfirst hothers =>
    exact ⟨⟨.skipped, repeated (one blank)⟩, by simp [rules], rfl,
      matches_repeated_one.mpr ⟨List.cons_ne_nil _ _,
        List.forall_mem_cons.mpr ⟨has_blank ▸ hfirst, fun x hx ↦ has_blank ▸ hothers x hx⟩⟩⟩
  | lineComment h =>
    exact ⟨⟨.skipped, lineComment⟩, by simp [rules], rfl, matches_lineComment.mpr ⟨_, h, rfl⟩⟩
  | blockComment h =>
    exact ⟨⟨.skipped, blockComment⟩, by simp [rules], rfl, matches_blockComment.mpr ⟨_, h, rfl⟩⟩
  | openComment h =>
    exact ⟨⟨.unclosed, unclosedComment⟩, by simp [rules], rfl,
      matches_unclosedComment.mpr ⟨_, h, rfl⟩⟩
  | string h => exact ⟨⟨.string, quoted⟩, by simp [rules], rfl, matches_quoted.mpr ⟨_, h, rfl⟩⟩
  | openString h =>
    exact ⟨⟨.unclosed, unclosedString⟩, by simp [rules], rfl,
      matches_unclosedString.mpr ⟨_, h, rfl⟩⟩
  | @keyword m _ _ hspelling => exact hspelling ▸ hspelled m.text m (mem_spellings m)
  | @symbol m _ _ hspelling => exact hspelling ▸ hspelled m.text m (mem_spellings m)
  | greekPi => exact hspelled "π" .pi (by decide)
  | integer hfirst hothers =>
    exact ⟨⟨.integer, Lexer.digits⟩, by simp [rules], rfl,
      matches_digits.mpr ⟨List.cons_ne_nil _ _, List.forall_mem_cons.mpr ⟨hfirst, hothers⟩⟩⟩
  | float h =>
    rcases matches_of_isFloat h with h | h
    · exact ⟨⟨.float, pointFloat⟩, by simp [rules], rfl, h⟩
    · exact ⟨⟨.float, exponentFloat⟩, by simp [rules], rfl, h⟩
  | word h => exact ⟨⟨.identifier, word⟩, by simp [rules], rfl, matches_word.mpr h⟩

/-- A keyword is preferred to an identifier. -/
theorem priority_lt {keyword : TokenRule} {m : Mark} (hrule : rule ∈ rules)
    (hkind : rule.kind = .identifier) (hkeyword : keyword ∈ rules) (hm : keyword.kind = .mark m) :
    rule.pattern.priority < keyword.pattern.priority := by
  have hword : ∀ rule ∈ rules, rule.kind = .identifier → rule.pattern.priority = 1 := by
    decide +kernel
  have hmark : ∀ rule ∈ rules, (∃ m ∈ spellings.map Prod.snd, rule.kind = .mark m) →
      1 < rule.pattern.priority := by decide +kernel
  rw [hword rule hrule hkind]
  exact hmark keyword hkeyword ⟨m, List.mem_map_of_mem (mem_spellings m), hm⟩

/-! ### First characters -/

theorem isWord_of_keyword (hm : m ∈ Mark.keywords) (h : m.text.toList = w) : IsWord w := by
  have hall : ∀ m ∈ Mark.keywords, IsWord m.text.toList := by decide
  exact h ▸ hall m hm

/-- Different marks have different spellings. -/
theorem eq_of_text_eq {m m' : Mark} (h : m.text = m'.text) : m = m' := by
  have hfind (m : Mark) : spellings.find? (·.1 = m.text) = some (m.text, m) := by
    cases m <;> decide
  exact (Prod.mk.inj (Option.some.inj ((hfind m).symm.trans (h ▸ hfind m')))).2

theorem isSymbol_of_text (h : m.text.toList = [c]) : c ∈ Mark.symbols := by
  cases m <;> cases h <;> decide

theorem isDigit_of_isFloat (h : IsFloat (c :: cs)) : isDigit c = true := by
  obtain ⟨n, x, -, heq⟩ := h
  obtain ⟨d, ds, htext, hd⟩ := n.exists_text_eq
  rw [htext] at heq
  exact (List.cons.inj heq).1 ▸ hd

namespace Lexer.Kind.Shape

theorem ne_nil (h : k.Shape w) : w ≠ [] := by
  rintro rfl
  cases h with
  | keyword hm hspelling => exact isWord_of_keyword hm hspelling
  | float hfloat =>
    obtain ⟨c, hc, -⟩ := hfloat.exists_not_isDigit
    cases hc
  | word hw => exact hw

/-- What begins with a letter is a word. -/
theorem of_isLetter (h : k.Shape (c :: cs)) (hc : isLetter c = true) :
    IsWord (c :: cs) ∧
      (k = .identifier ∨ ∃ m ∈ Mark.keywords, k = .mark m ∧ m.text.toList = c :: cs) := by
  have hword := isWordChar_of_isLetter hc
  cases h with
  | keyword hm hspelling => exact ⟨isWord_of_keyword hm hspelling, .inr ⟨_, hm, rfl, hspelling⟩⟩
  | word hw => exact ⟨hw, .inl rfl⟩
  | blanks hblank _ => cases hword.symm.trans (not_isWordChar_of_isBlank hblank)
  | symbol hsymbol _ => cases hword.symm.trans (not_isWordChar_of_isSymbol hsymbol)
  | integer hdigit _ => cases hdigit.symm.trans (isDigit_of_isLetter hc)
  | float hfloat => cases (isDigit_of_isFloat hfloat).symm.trans (isDigit_of_isLetter hc)
  | lineComment | blockComment | openComment | string | openString | greekPi =>
    exact absurd hc (by decide)

/-- What begins with a digit is a number. -/
theorem of_isDigit (h : k.Shape (c :: cs)) (hc : isDigit c = true) :
    (k = .integer ∧ ∀ x ∈ cs, isDigit x = true) ∨ (k = .float ∧ IsFloat (c :: cs)) := by
  have hword := isWordChar_of_isDigit hc
  cases h with
  | integer _ hothers => exact .inl ⟨rfl, hothers⟩
  | float hfloat => exact .inr ⟨rfl, hfloat⟩
  | keyword hm hspelling =>
    cases hc.symm.trans (isDigit_of_isLetter (isWord_of_keyword hm hspelling).1)
  | word hw => cases hc.symm.trans (isDigit_of_isLetter hw.1)
  | blanks hblank _ => cases hword.symm.trans (not_isWordChar_of_isBlank hblank)
  | symbol hsymbol _ => cases hword.symm.trans (not_isWordChar_of_isSymbol hsymbol)
  | lineComment | blockComment | openComment | string | openString | greekPi =>
    exact absurd hc (by decide)

/-- What begins with a blank is a row of blanks. -/
theorem of_isBlank (h : k.Shape (c :: cs)) (hc : isBlank c = true) :
    k = .skipped ∧ ∀ x ∈ cs, isBlank x = true := by
  have hplain := not_isWordChar_of_isBlank hc
  cases h with
  | blanks _ hothers => exact ⟨rfl, hothers⟩
  | keyword hm hspelling =>
    cases hplain.symm.trans (isWordChar_of_isLetter (isWord_of_keyword hm hspelling).1)
  | word hw => cases hplain.symm.trans (isWordChar_of_isLetter hw.1)
  | integer hdigit _ => cases hplain.symm.trans (isWordChar_of_isDigit hdigit)
  | float hfloat => cases hplain.symm.trans (isWordChar_of_isDigit (isDigit_of_isFloat hfloat))
  | symbol hsymbol _ => cases hc.symm.trans (not_isBlank_of_isSymbol hsymbol)
  | lineComment | blockComment | openComment | string | openString | greekPi =>
    exact absurd hc (by decide)

/-- What begins with a slash is a comment or the slash alone. -/
theorem of_slash (h : k.Shape ('/' :: cs)) : (k = .mark .slash ∧ cs = []) ∨
    (k = .skipped ∧ ∃ body, '\n' ∉ body ∧ cs = '/' :: body) ∨
    (k = .skipped ∧ ∃ v, ClosesFirst v ∧ cs = '*' :: v) ∨
    (k = .unclosed ∧ ∃ v, ¬ ['*', '/'] <:+: v ∧ cs = '*' :: v) := by
  cases h with
  | @symbol m _ _ hspelling =>
    obtain rfl : m = .slash := eq_of_text_eq (String.toList_injective hspelling)
    exact .inl ⟨rfl, rfl⟩
  | lineComment hbody => exact .inr (.inl ⟨rfl, _, hbody, rfl⟩)
  | blockComment hv => exact .inr (.inr (.inl ⟨rfl, _, hv, rfl⟩))
  | openComment hv => exact .inr (.inr (.inr ⟨rfl, _, hv, rfl⟩))
  | keyword hm hspelling => exact absurd (isWord_of_keyword hm hspelling).1 (by decide)
  | word hw => exact absurd hw.1 (by decide)
  | blanks hblank _ => exact absurd hblank (by decide)
  | integer hdigit _ => exact absurd hdigit (by decide)
  | float hfloat => exact absurd (isDigit_of_isFloat hfloat) (by decide)

/-- What begins with a quote is a string, closed or not. -/
theorem of_quote (h : k.Shape ('"' :: cs)) :
    (k = .string ∧ ∃ content, '"' ∉ content ∧ cs = content ++ ['"']) ∨
      (k = .unclosed ∧ '"' ∉ cs) := by
  cases h with
  | string hcontent => exact .inl ⟨rfl, _, hcontent, rfl⟩
  | openString hcontent => exact .inr ⟨rfl, hcontent⟩
  | keyword hm hspelling => exact absurd (isWord_of_keyword hm hspelling).1 (by decide)
  | word hw => exact absurd hw.1 (by decide)
  | blanks hblank _ => exact absurd hblank (by decide)
  | symbol hsymbol _ => exact absurd hsymbol (by decide)
  | integer hdigit _ => exact absurd hdigit (by decide)
  | float hfloat => exact absurd (isDigit_of_isFloat hfloat) (by decide)

/-- Every other symbol is a mark of its own. -/
theorem of_symbol (h : k.Shape (c :: cs)) (hc : c ∈ Mark.symbols) (hslash : c ≠ '/') :
    cs = [] ∧ ∃ m, k = .mark m ∧ (m.text.toList = [c] ∨ m = .pi ∧ c = 'π') := by
  have hplain := not_isWordChar_of_isSymbol hc
  cases h with
  | symbol _ hspelling => exact ⟨rfl, _, rfl, .inl hspelling⟩
  | greekPi => exact ⟨rfl, _, rfl, .inr ⟨rfl, rfl⟩⟩
  | lineComment | blockComment | openComment => exact absurd rfl hslash
  | string | openString => exact absurd hc (by decide)
  | keyword hm hspelling =>
    cases hplain.symm.trans (isWordChar_of_isLetter (isWord_of_keyword hm hspelling).1)
  | word hw => cases hplain.symm.trans (isWordChar_of_isLetter hw.1)
  | integer hdigit _ => cases hplain.symm.trans (isWordChar_of_isDigit hdigit)
  | float hfloat => cases hplain.symm.trans (isWordChar_of_isDigit (isDigit_of_isFloat hfloat))
  | blanks hblank _ => cases hblank.symm.trans (not_isBlank_of_isSymbol hc)

end Lexer.Kind.Shape

end Kinds

end Source

end Peephole
