import Peephole.Proofs.Nearest

/-!
# Texts of lexemes

A `Lexeme` is a text that stands for one token, and a `Separator` is what may stand after it: white
space and comments, with white space first. When lexemes are written one after the other, each with
a separator, the tokens of the text are the tokens of the lexemes, and each is found on the line on
which its lexeme begins (`tokenize_written`). Comments and strings may run over several lines. The
value of a float is the number nearest to its decimal.
-/

set_option autoImplicit false
set_option relaxedAutoImplicit false

namespace Peephole.Source

open Lexer Decimal Binary64

/-! ### Lexemes -/

/-- The value of a row of digits. -/
def decimalValue (digits : List Char) : ℕ :=
  Nat.ofDigitChars 10 digits 0

/-- The rational that a numeral with an exponent stands for. -/
def floatDecimal (n : Numeral) (exponent : Option Exponent) : ℚ :=
  decimalValue n.digits * 10 ^ (exponent.elim 0 Exponent.value - n.places)

/-- A text that stands for one token. -/
inductive Lexeme where
  | mark (m : Mark)
  | greekPi
  | identifier (name : String) (isName : IsName name)
  | integer (digits : List Char) (ne_nil : digits ≠ []) (isDigit : ∀ c ∈ digits, isDigit c = true)
      (fits : decimalValue digits < UInt64.size)
  | float (n : Numeral) (exponent : Option Exponent)
      (isFloat : n.fraction.isSome = true ∨ exponent.isSome = true) (value : Float)
      (isNearest : IsNearest (floatDecimal n exponent) value)
  | string (content : String) (unquoted : '"' ∉ content.toList)

namespace Lexeme

def text : Lexeme → List Char
  | mark m => m.text.toList
  | greekPi => ['π']
  | identifier name _ => name.toList
  | integer digits _ _ _ => digits
  | float n exponent _ _ _ => n.text ++ exponent.elim [] Exponent.text
  | string content _ => '"' :: (content.toList ++ ['"'])

def token : Lexeme → Token
  | mark m => .mark m
  | greekPi => .mark .pi
  | identifier name _ => .identifier name
  | integer digits _ _ _ => .int (decimalValue digits)
  | float _ _ _ value _ => .float value
  | string content _ => .string content

end Lexeme

/-! ### Separators -/

/-- A text that is skipped. -/
inductive Gap where
  | blank (c : Char) (isBlank : isBlank c = true)
  | lineComment (body : List Char) (oneLine : '\n' ∉ body)
  | blockComment (body : List Char) (unclosed : ¬ ['*', '/'] <:+: body)

def Gap.text : Gap → List Char
  | blank c _ => [c]
  | lineComment body _ => '/' :: '/' :: (body ++ ['\n'])
  | blockComment body _ => '/' :: '*' :: (body ++ ['*', '/'])

/-- White space and comments, with white space first. -/
structure Separator where
  first : Char
  gaps : List Gap
  isBlank_first : isBlank first = true

def Separator.text (s : Separator) : List Char :=
  s.first :: s.gaps.flatMap Gap.text

/-- The text of lexemes with separators after them. -/
def written (ls : List (Lexeme × Separator)) : List Char :=
  ls.flatMap fun l ↦ l.1.text ++ l.2.text

/-! ### Skipping -/

section Skipping

variable {c : Char} {body rest : List Char}

theorem isFirst_lineComment (h : '\n' ∉ body) :
    Piece.skipped.IsFirst ('/' :: '/' :: body) ('\n' :: rest) := by
  refine Wins.isFirst (k := .skipped) ⟨.lineComment h, fun other more hmore hshape ↦ ?_⟩
  rcases hshape.of_slash with ⟨-, heq⟩ | ⟨rfl, body', hbody', heq⟩ | ⟨-, v, -, heq⟩ | ⟨-, v, -, heq⟩
  · cases heq
  · obtain rfl := (List.cons.inj heq).2
    refine ⟨eq_nil_of_forall (P := (· ≠ '\n')) hmore ?_ (by simp), .inl rfl⟩
    rintro x hx rfl
    exact hbody' (List.mem_append_right _ hx)
  · cases heq
  · cases heq

theorem isFirst_blockComment (h : ¬ ['*', '/'] <:+: body) :
    Piece.skipped.IsFirst ('/' :: '*' :: (body ++ ['*', '/'])) rest := by
  refine Wins.isFirst (k := .skipped) ⟨.blockComment ⟨body, h, rfl⟩, fun other more _ hshape ↦ ?_⟩
  rcases hshape.of_slash with ⟨-, heq⟩ | ⟨-, _, -, heq⟩ | ⟨rfl, v, hv, heq⟩ | ⟨-, v, hv, heq⟩
  · cases heq
  · cases heq
  · obtain rfl := (List.cons.inj heq).2
    exact ⟨closesFirst_append ⟨body, h, rfl⟩ hv, .inl rfl⟩
  · obtain rfl := (List.cons.inj heq).2
    exact absurd ⟨body, more, by simp⟩ hv

theorem tokenizeFrom_gap (g : Gap) (line : Nat) (rest : List Char) :
    tokenizeFrom line (g.text ++ rest) = tokenizeFrom (line + g.text.count '\n') rest := by
  cases g with
  | blank c hc => exact tokenizeFrom_blank hc line
  | lineComment body hbody =>
    -- The line feed is a blank after the comment.
    have htext : Gap.text (.lineComment body hbody) = '/' :: '/' :: body ++ ['\n'] := rfl
    rw [htext, List.append_assoc, List.singleton_append, (isFirst_lineComment hbody).tokenizeFrom,
      Piece.entries, List.nil_append, tokenizeFrom_blank rfl, List.count_append, Nat.add_assoc]
  | blockComment body hbody => exact (isFirst_blockComment hbody).tokenizeFrom line

theorem tokenizeFrom_gaps (gs : List Gap) (line : Nat) (rest : List Char) :
    tokenizeFrom line (gs.flatMap Gap.text ++ rest) =
      tokenizeFrom (line + (gs.flatMap Gap.text).count '\n') rest := by
  induction gs generalizing line with
  | nil => rfl
  | cons g gs ih =>
    rw [List.flatMap_cons, List.append_assoc, tokenizeFrom_gap, ih, List.count_append,
      Nat.add_assoc]

theorem tokenizeFrom_separator (s : Separator) (line : Nat) (rest : List Char) :
    tokenizeFrom line (s.text ++ rest) = tokenizeFrom (line + s.text.count '\n') rest := by
  rw [Separator.text, List.cons_append, tokenizeFrom_blank s.isBlank_first, tokenizeFrom_gaps,
    Nat.add_assoc, ← List.count_append, List.singleton_append]

end Skipping

/-! ### Reading lexemes -/

section Lexemes

variable {c : Char} {rest : List Char}

theorem isFirst_string {content : String} (h : '"' ∉ content.toList) :
    (Piece.token (.string content)).IsFirst ('"' :: (content.toList ++ ['"'])) rest := by
  have hwins : Wins .string ('"' :: (content.toList ++ ['"'])) rest := by
    refine ⟨.string h, fun other more _ hshape ↦ ?_⟩
    rcases hshape.of_quote with ⟨rfl, content', hcontent', heq⟩ | ⟨-, hopen⟩
    · refine ⟨?_, .inl rfl⟩
      -- Otherwise the content of the longer string would have the quote.
      rcases List.eq_nil_or_concat more with hnil | ⟨longer, x, rfl⟩
      · exact hnil
      · have hlonger : content.toList ++ ['"'] ++ longer ++ [x] = content' ++ ['"'] := by
          simpa using heq
        exact absurd (by simp [← (List.append_inj' hlonger rfl).1]) hcontent'
    · exact absurd (by simp) hopen
  have hcontent : ('"' :: (content.toList ++ ['"'])).tail.dropLast = content.toList :=
    List.dropLast_concat
  have hfirst := hwins.isFirst
  rwa [Kind.piece, hcontent, String.ofList_toList] at hfirst

/-- A blank continues neither a word nor a number, and begins no comment. -/
theorem not_continues_of_isBlank (h : isBlank c = true) :
    (isWordChar c = false ∧ c ≠ '.') ∧ c ≠ '/' ∧ c ≠ '*' := by
  simp only [isBlank, Bool.or_eq_true, decide_eq_true_eq] at h
  rcases h with ((rfl | rfl) | rfl) | rfl <;> decide

/-- A lexeme with a blank after it is read as its token. -/
theorem Lexeme.isFirst_text (l : Lexeme) (h : isBlank c = true) :
    (Piece.token l.token).IsFirst l.text (c :: rest) := by
  obtain ⟨hword, hslash⟩ := not_continues_of_isBlank h
  have hend : Ends (c :: rest) := ends_cons.mpr hword
  cases l with
  | mark m =>
    rcases m.keyword_or_symbol with ⟨hm, -⟩ | ⟨x, -, htext⟩
    · exact isFirst_keyword hm hend
    · rw [text, htext]
      by_cases hne : x = '/'
      · subst hne
        obtain rfl : m = .slash := eq_of_text_eq (String.toList_injective htext)
        exact isFirst_slash fun _ hx ↦ Option.some.inj hx ▸ hslash
      · exact isFirst_mark htext hne
  | greekPi => exact isFirst_greekPi
  | identifier name hname => exact isFirst_name hname hend
  | integer digits hne hdigits hfits =>
    cases digits with
    | nil => exact absurd rfl hne
    | cons d digits =>
      rw [List.forall_mem_cons] at hdigits
      have hfirst := isFirst_whole hdigits.1 hdigits.2 hend
      have hmax : digitsValue (d :: digits) ≤ maxInt := Nat.le_pred_of_lt hfits
      rwa [if_pos hmax] at hfirst
  | float n exponent hfloat value hvalue =>
    obtain rfl := hvalue.unique (isNearest_nearest _ _)
    exact n.isFirst_float exponent hfloat hend
  | string content hcontent => exact isFirst_string hcontent

/-- A word that goes on after a keyword is a name, as no keyword begins with another one. -/
theorem isName_keyword_append {m : Mark} {more : List Char} (hm : m ∈ Mark.keywords)
    (hne : more ≠ []) (hmore : ∀ c ∈ more, isWordChar c = true) :
    IsName (String.ofList (m.text.toList ++ more)) := by
  have hprefixes : ∀ m ∈ Mark.keywords, ∀ k ∈ Mark.keywords,
      m.text.toList <+: k.text.toList → m = k := by decide
  refine ⟨?_, List.find?_eq_none.mpr fun k hk hspelled ↦ ?_⟩
  · have hword := (Mark.isWord_text m hm).1
    rw [String.toList_ofList]
    cases htext : m.text.toList with
    | nil => rw [htext] at hword; exact hword.elim
    | cons c cs =>
      rw [htext] at hword
      exact ⟨hword.1, List.forall_mem_append.mpr ⟨hword.2, hmore⟩⟩
  · have htext : k.text.toList = m.text.toList ++ more := by
      rw [of_decide_eq_true hspelled, String.toList_ofList]
    cases hprefixes m hm k hk ⟨more, htext.symm⟩
    exact hne (List.append_right_eq_self.mp htext.symm)

/-- One lexeme and its separator are read as one token. -/
theorem tokenizeFrom_lexeme (l : Lexeme) (s : Separator) (line : Nat) (rest : List Char) :
    tokenizeFrom line (l.text ++ s.text ++ rest) =
      .ok ⟨line, l.token⟩ :: tokenizeFrom (line + (l.text ++ s.text).count '\n') rest := by
  have hfirst : (Piece.token l.token).IsFirst l.text (s.text ++ rest) :=
    l.isFirst_text s.isBlank_first
  rw [List.append_assoc, hfirst.tokenizeFrom, tokenizeFrom_separator, List.count_append,
    Nat.add_assoc]
  rfl

theorem tokenizeFrom_written (line : Nat) (ls : List (Lexeme × Separator)) :
    tokenizeFrom line (written ls) =
      ls.mapIdx fun i l ↦ .ok ⟨line + (written (ls.take i)).count '\n', l.1.token⟩ := by
  induction ls generalizing line with
  | nil => rw [written, List.flatMap_nil, tokenizeFrom, List.mapIdx_nil]
  | cons l ls ih =>
    have hlines (i : Nat) : line + (written ((l :: ls).take (i + 1))).count '\n' =
        line + (l.1.text ++ l.2.text).count '\n' + (written (ls.take i)).count '\n' := by
      rw [List.take_succ_cons, written, List.flatMap_cons, List.count_append, Nat.add_assoc]
      rfl
    have hrest := ih (line + (l.1.text ++ l.2.text).count '\n')
    simp only [← hlines] at hrest
    rw [List.mapIdx_cons, ← hrest, written, List.flatMap_cons, tokenizeFrom_lexeme]
    rfl

end Lexemes

/-- Lexemes with separators after them are read as their tokens, each on the line on which it
begins. A keyword with further letters or digits is a lexeme too, and its token is an identifier;
and so is every text of a float. -/
theorem tokenize_written (ls : List (Lexeme × Separator)) :
    tokenize (String.ofList (written ls)) =
        ls.mapIdx (fun i l ↦ .ok ⟨1 + (written (ls.take i)).count '\n', l.1.token⟩) ∧
      (∀ m ∈ Mark.keywords, ∀ more ≠ [], (∀ c ∈ more, isWordChar c = true) →
        ∃ l : Lexeme, l.text = m.text.toList ++ more ∧
          l.token = .identifier (String.ofList (m.text.toList ++ more))) ∧
      ∀ w, IsFloat w → ∃ (l : Lexeme) (x : Float), l.text = w ∧ l.token = .float x := by
  refine ⟨?_, fun m hm more hne hmore ↦ ?_, fun w hw ↦ ?_⟩
  · rw [tokenize, String.toList_ofList, tokenizeFrom_written]
  · exact ⟨.identifier _ (isName_keyword_append hm hne hmore), String.toList_ofList, rfl⟩
  · obtain ⟨n, exponent, hfloat, rfl⟩ := hw
    exact ⟨.float n exponent hfloat _ (isNearest_nearest _ _), _, rfl, rfl⟩

/-- A comment and a string over two lines each, and a keyword that goes on. -/
theorem tokenize_written_lines :
    tokenize "do /* **\n*/\t\"x\ny\" // */\n 1e-2\rdone\n" =
      [.ok ⟨1, .mark .begin⟩, .ok ⟨2, .string "x\ny"⟩, .ok ⟨4, .float 0.01⟩,
        .ok ⟨4, .identifier "done"⟩] := by
  have hvalue : nearest 1 (-2) = 0.01 := by decide +kernel
  exact (tokenize_written
    [(.mark .begin, ⟨' ', [.blockComment " **\n".toList (by decide), .blank '\t' rfl], rfl⟩),
      (.string "x\ny" (by decide),
        ⟨' ', [.lineComment " */".toList (by decide), .blank ' ' rfl], rfl⟩),
      (.float ⟨['1'], none, by decide, List.forall_mem_singleton.mpr rfl, by simp⟩
        (some ⟨'e', ['-'], ['2'], .inl rfl, .inr (.inr rfl), by decide,
          List.forall_mem_singleton.mpr rfl⟩) (.inr rfl) 0.01 (hvalue ▸ isNearest_nearest 1 (-2)),
        ⟨'\r', [], rfl⟩),
      (.identifier "done" (by decide), ⟨'\n', [], rfl⟩)]).1

end Peephole.Source
