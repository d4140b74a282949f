import Peephole.Proofs.Parsing
import Peephole.Proofs.Shapes

/-!
# Texts as words

`cut` gives the words of a text: its tokens without their lines, and `none` for what belongs to no
token. A text is read as a program exactly if all of it belongs to tokens and these are the words of
the program (`parse_eq_ok`).

A piece in front of a text (`Piece.IsFirst`) is cut off from it and the rest is cut on its own. That
is so if no text of the table is longer there (`Wins.isFirst`). A word, a row of digits or a mark is
such a piece, if what follows does not continue it (`isFirst_word`, `isFirst_whole`,
`isFirst_mark`).
-/

set_option autoImplicit false
set_option relaxedAutoImplicit false

namespace Peephole.Source

/-! ### Cutting -/

/-- The word of a token or failure. -/
def wordOf (piece : Except LexerFault Located) : Option Token :=
  piece.toOption.map Located.token

/-- The words of a text, with `none` for what belongs to no token. -/
def cut (cs : List Char) : List (Option Token) :=
  (tokenizeFrom 1 cs).map wordOf

/-- The words of a piece. -/
def Piece.words : Piece → List (Option Token)
  | skipped => []
  | token t => [some t]
  | invalid => [none]

/-- The tokens and failures that a piece is. -/
def Piece.entries (line : Nat) (text : List Char) : Piece → List (Except LexerFault Located)
  | skipped => []
  | token t => [.ok ⟨line, t⟩]
  | invalid => [.error ⟨line, String.ofList text⟩]

theorem Piece.map_wordOf_entries (line : Nat) (text : List Char) (p : Piece) :
    (p.entries line text).map wordOf = p.words := by
  cases p <;> rfl

section Cut

variable {c : Char} {cs rest : List Char}

theorem cut_nil : cut [] = [] := by
  rw [cut, tokenizeFrom, List.map_nil]

theorem tokenizeFrom_cons (line : Nat) (c : Char) (cs : List Char) :
    tokenizeFrom line (c :: cs) =
      (Lexer.piece c cs).1.entries line (c :: cs.take (Lexer.piece c cs).2) ++
        tokenizeFrom (line + (c :: cs.take (Lexer.piece c cs).2).count '\n')
          (cs.drop (Lexer.piece c cs).2) := by
  rw [tokenizeFrom]
  dsimp only
  cases (Lexer.piece c cs).1 <;> rfl

theorem map_tokenizeFrom_cons (line : Nat) (c : Char) (cs : List Char) :
    (tokenizeFrom line (c :: cs)).map wordOf = (Lexer.piece c cs).1.words ++
      (tokenizeFrom (line + (c :: cs.take (Lexer.piece c cs).2).count '\n')
        (cs.drop (Lexer.piece c cs).2)).map wordOf := by
  rw [tokenizeFrom_cons, List.map_append, Piece.map_wordOf_entries]

/-- The words do not depend on the number of the first line. -/
theorem map_tokenizeFrom (line : Nat) (cs : List Char) :
    (tokenizeFrom line cs).map wordOf = cut cs := by
  have hsame (line line' : Nat) :
      (tokenizeFrom line cs).map wordOf = (tokenizeFrom line' cs).map wordOf := by
    induction hn : cs.length using Nat.strongRecOn generalizing cs line line' with
    | ind n ih =>
      cases cs with
      | nil => rw [tokenizeFrom, tokenizeFrom]
      | cons c cs =>
        rw [map_tokenizeFrom_cons, map_tokenizeFrom_cons]
        refine congrArg _ (ih _ ?_ _ _ _ rfl)
        rw [← hn, List.length_cons, List.length_drop]
        omega
  exact hsame line 1

theorem cut_cons (c : Char) (cs : List Char) :
    cut (c :: cs) = (Lexer.piece c cs).1.words ++ cut (cs.drop (Lexer.piece c cs).2) := by
  rw [cut, map_tokenizeFrom_cons, map_tokenizeFrom]

theorem length_cut_le (cs : List Char) : (cut cs).length ≤ cs.length := by
  induction hn : cs.length using Nat.strongRecOn generalizing cs with
  | ind n ih =>
    cases cs with
    | nil => rw [cut_nil, List.length_nil]; exact Nat.zero_le n
    | cons c cs =>
      have hrest : (cs.drop (Lexer.piece c cs).2).length < n := by
        rw [← hn, List.length_cons, List.length_drop]
        omega
      have hpiece : (Lexer.piece c cs).1.words.length ≤ 1 := by
        cases (Lexer.piece c cs).1 <;> simp [Piece.words]
      have := ih _ hrest _ rfl
      rw [cut_cons, List.length_append]
      omega

/-- What holds of every token that is cut off the front of a text holds of all tokens of a text. -/
theorem forall_mem_cut {P : Token → Prop}
    (h : ∀ c cs t, (Lexer.piece c cs).1 = .token t → P t) (cs : List Char) :
    ∀ t, some t ∈ cut cs → P t := by
  induction hn : cs.length using Nat.strongRecOn generalizing cs with
  | ind n ih =>
    intro t ht
    cases cs with
    | nil => rw [cut_nil] at ht; cases ht
    | cons c cs =>
      rw [cut_cons] at ht
      rcases List.mem_append.mp ht with ht | ht
      · refine h c cs t ?_
        cases hpiece : (Lexer.piece c cs).1 <;> rw [hpiece] at ht <;> simp [Piece.words] at ht
        rw [ht]
      · refine ih _ ?_ _ rfl t ht
        rw [← hn, List.length_cons, List.length_drop]
        omega

end Cut

/-! ### Reading texts -/

/-- Reading fails at the first failure, and otherwise gives all tokens. -/
theorem mapM_lexical_eq_ok {pieces : List (Except LexerFault Located)} {ts : Tokens} :
    pieces.mapM (fun piece ↦ piece.mapError SourceFault.lexical) = .ok ts ↔
      pieces = ts.map .ok := by
  induction pieces generalizing ts with
  | nil =>
    cases ts with
    | nil => exact iff_of_true rfl rfl
    | cons t ts => exact iff_of_false nofun nofun
  | cons piece pieces ih =>
    rw [List.mapM_cons, Run.bind_eq_ok]
    constructor
    · rintro ⟨t, ht, h⟩
      obtain ⟨ts', hts', heq⟩ := Run.bind_eq_ok.mp h
      cases heq
      rw [Run.mapError_eq_ok.mp ht, ih.mp hts', List.map_cons]
    · intro h
      cases ts with
      | nil => cases h
      | cons t ts =>
        cases h
        exact ⟨t, rfl, Run.bind_eq_ok.mpr ⟨ts, ih.mpr rfl, rfl⟩⟩

theorem exists_tokens_of_map_wordOf {pieces : List (Except LexerFault Located)} {ws : List Token}
    (h : pieces.map wordOf = ws.map some) :
    ∃ ts : Tokens, pieces = ts.map .ok ∧ ts.map Located.token = ws := by
  induction pieces generalizing ws with
  | nil =>
    cases ws with
    | nil => exact ⟨[], rfl, rfl⟩
    | cons w ws => cases h
  | cons piece pieces ih =>
    cases ws with
    | nil => cases h
    | cons w ws =>
      obtain ⟨hfirst, hrest⟩ := List.cons.inj h
      obtain ⟨ts, rfl, rfl⟩ := ih hrest
      cases piece with
      | error fault => cases hfirst
      | ok t => exact ⟨t :: ts, rfl, congrArg (· :: _) (Option.some.inj hfirst)⟩

/-- A text is read as a program exactly if its words are the words of the program. -/
theorem parse_eq_ok {source : String} {p : Program} : parse source = .ok p ↔
    ∃ ws, cut source.toList = ws.map some ∧ Grammar.Text ws p := by
  constructor
  · intro h
    obtain ⟨ts, hts, hparse⟩ := Run.bind_eq_ok.mp h
    refine ⟨ts.map Located.token, ?_, text_of_parseTokens hparse⟩
    rw [cut, show tokenizeFrom 1 source.toList = ts.map .ok from mapM_lexical_eq_ok.mp hts,
      List.map_map, List.map_map]
    rfl
  · rintro ⟨ws, hws, htext⟩
    obtain ⟨ts, hts, rfl⟩ := exists_tokens_of_map_wordOf hws
    exact Run.bind_eq_ok.mpr ⟨ts, mapM_lexical_eq_ok.mpr hts, parseTokens_of_text htext⟩

/-! ### The first piece -/

open Lexer Decimal

/-- The first piece of `text ++ rest` is `text`. -/
def Piece.IsFirst (p : Piece) (text rest : List Char) : Prop :=
  ∃ c cs, text = c :: cs ∧ piece c (cs ++ rest) = (p, cs.length)

/-- A text that continues neither a word nor a number. -/
def Ends (rest : List Char) : Prop :=
  ∀ c, rest.head? = some c → isWordChar c = false ∧ c ≠ '.'

/-- A text of a kind that does not go on in `rest`. If it has another kind too, it is a keyword and
the other kind are the identifiers. -/
structure Wins (k : Kind) (text rest : List Char) : Prop where
  shape : k.Shape text
  only : ∀ other more, more <+: rest → other.Shape (text ++ more) →
    more = [] ∧ (other = k ∨ other = .identifier ∧ ∃ m, k = .mark m)

section Pieces

variable {p : Piece} {k : Kind} {c : Char} {m : Mark} {name : String}
  {text cs whole body more rest : List Char}

/-- The first piece is read on its line, and the rest from the line on which the piece ends. -/
theorem Piece.IsFirst.tokenizeFrom (h : p.IsFirst text rest) (line : Nat) :
    tokenizeFrom line (text ++ rest) =
      p.entries line text ++ Source.tokenizeFrom (line + text.count '\n') rest := by
  obtain ⟨c, cs, rfl, hpiece⟩ := h
  rw [List.cons_append, tokenizeFrom_cons, hpiece, List.take_left, List.drop_left]

theorem Piece.IsFirst.cut (h : p.IsFirst text rest) : cut (text ++ rest) = p.words ++ cut rest := by
  rw [Source.cut, h.tokenizeFrom, List.map_append, Piece.map_wordOf_entries, map_tokenizeFrom]

theorem ends_nil : Ends [] :=
  nofun

theorem ends_cons : Ends (c :: rest) ↔ isWordChar c = false ∧ c ≠ '.' := by
  simp [Ends]

/-- The longest match is the piece: nothing runs long, and a keyword outranks an identifier. -/
theorem Wins.isFirst (h : Wins k text rest) : (k.piece text).IsFirst text rest := by
  obtain ⟨rule, hrule, hkind, hmatch⟩ := exists_rule_of_shape h.shape
  obtain ⟨best, n, hchoose⟩ := exists_choose hrule (List.prefix_append text rest) hmatch
  obtain ⟨w, rfl, hbest⟩ := isBest_of_choose hchoose
  -- The best match is no shorter than the text, so it is the text with some of the rest.
  have hlength := hbest.longest rule hrule text (List.prefix_append text rest) hmatch
  obtain ⟨more, rfl⟩ :=
    List.prefix_of_prefix_length_le (List.prefix_append text rest) hbest.starts hlength
  have hmore : more <+: rest := (List.prefix_append_right_inj text).mp hbest.starts
  obtain ⟨rfl, hother⟩ := h.only best.kind more hmore (shape_of_matches hbest.mem hbest.accepted)
  rw [List.append_nil] at hbest hchoose
  have hsame : best.kind = k := by
    rcases hother with hsame | ⟨hidentifier, m, rfl⟩
    · exact hsame
    · have hlower := hbest.highest rule hrule hmatch
      exact absurd (priority_lt hbest.mem hidentifier hrule hkind) (Nat.not_lt.mpr hlower)
  obtain ⟨c, cs, rfl⟩ := List.exists_cons_of_ne_nil h.shape.ne_nil
  refine ⟨c, cs, rfl, ?_⟩
  rw [List.cons_append] at hchoose
  simp only [piece, hchoose]
  rw [← List.cons_append, List.take_left, hsame]
  rfl

/-- What is read from the front of the rest is nothing, if its first character does not fit. -/
theorem eq_nil_of_forall {P : Char → Prop} (hmore : more <+: rest) (h : ∀ x ∈ more, P x)
    (hrest : ∀ x, rest.head? = some x → ¬ P x) : more = [] := by
  obtain ⟨tail, rfl⟩ := hmore
  cases more with
  | nil => rfl
  | cons x more => exact absurd (h x List.mem_cons_self) (hrest x rfl)

/-! ### Blanks -/

theorem wins_blanks (hc : isBlank c = true) (hcs : ∀ x ∈ cs, isBlank x = true)
    (hrest : ∀ x, rest.head? = some x → isBlank x = false) : Wins .skipped (c :: cs) rest := by
  refine ⟨.blanks hc hcs, fun other more hmore hshape ↦ ?_⟩
  obtain ⟨rfl, hall⟩ := hshape.of_isBlank hc
  refine ⟨eq_nil_of_forall hmore (List.forall_mem_append.mp hall).2 fun x hx ↦ ?_, .inl rfl⟩
  rw [hrest x hx]
  exact Bool.false_ne_true

/-- Blanks are skipped. -/
theorem tokenizeFrom_blank (h : isBlank c = true) (line : Nat) :
    tokenizeFrom line (c :: rest) = tokenizeFrom (line + [c].count '\n') rest := by
  -- A piece is a whole row of blanks, so the rest may be in the middle of one.
  have hskip {c : Char} (hc : isBlank c = true) (cs : List Char) (line : Nat) :
      tokenizeFrom line (c :: cs) = tokenizeFrom (line + (c :: cs.takeWhile isBlank).count '\n')
        (cs.dropWhile isBlank) := by
    have hwins : Wins .skipped (c :: cs.takeWhile isBlank) (cs.dropWhile isBlank) :=
      wins_blanks hc (List.all_eq_true.mp List.all_takeWhile) fun x hx ↦ by
        simpa [hx] using List.head?_dropWhile_not isBlank cs
    have hread := hwins.isFirst.tokenizeFrom line
    rwa [List.cons_append, List.takeWhile_append_dropWhile] at hread
  rw [hskip h]
  cases rest with
  | nil => rfl
  | cons x rest =>
    by_cases hx : isBlank x = true
    · rw [hskip hx, List.takeWhile_cons_of_pos hx, List.dropWhile_cons_of_pos hx,
        ← List.singleton_append, List.count_append, Nat.add_assoc]
    · rw [List.takeWhile_cons_of_neg hx, List.dropWhile_cons_of_neg hx]

theorem cut_blank (h : isBlank c = true) : cut (c :: rest) = cut rest := by
  rw [cut, tokenizeFrom_blank h, map_tokenizeFrom]

/-! ### Words -/

/-- The token that a word is. -/
def wordToken (text : String) : Token :=
  match Mark.keyword? text with
  | some m => .mark m
  | none => .identifier text

/-- A keyword that is found is spelled like the word. -/
theorem text_of_keyword? (h : Mark.keyword? (String.ofList text) = some m) :
    m ∈ Mark.keywords ∧ m.text.toList = text := by
  have htext : m.text = String.ofList text := of_decide_eq_true (List.find?_some h :)
  exact ⟨List.mem_of_find?_eq_some h, by rw [htext, String.toList_ofList]⟩

theorem isFirst_word (h : IsWord text) (hend : Ends rest) :
    (Piece.token (wordToken (String.ofList text))).IsFirst text rest := by
  obtain ⟨c, cs, rfl⟩ := List.exists_cons_of_ne_nil (Kind.Shape.word h).ne_nil
  have hothers (other : Kind) (more : List Char) (hmore : more <+: rest)
      (hshape : other.Shape (c :: cs ++ more)) : more = [] ∧ (other = .identifier ∨
        ∃ m ∈ Mark.keywords, other = .mark m ∧ m.text.toList = c :: cs) := by
    obtain ⟨hword, hkind⟩ := hshape.of_isLetter h.1
    have hnil : more = [] := eq_nil_of_forall hmore (List.forall_mem_append.mp hword.2).2
      fun x hx ↦ Bool.eq_false_iff.mp (hend x hx).1
    subst hnil
    exact ⟨rfl, by simpa using hkind⟩
  unfold wordToken
  cases hkeyword : Mark.keyword? (String.ofList (c :: cs)) with
  | some m =>
    obtain ⟨hm, hspelling⟩ := text_of_keyword? hkeyword
    refine Wins.isFirst (k := .mark m) ⟨.keyword hm hspelling, ?_⟩
    intro other more hmore hshape
    obtain ⟨hnil, rfl | ⟨m', -, rfl, hspelling'⟩⟩ := hothers other more hmore hshape
    · exact ⟨hnil, .inr ⟨rfl, m, rfl⟩⟩
    · have hsame := eq_of_text_eq (String.toList_injective (hspelling'.trans hspelling.symm))
      exact ⟨hnil, .inl (congrArg _ hsame)⟩
  | none =>
    refine Wins.isFirst (k := .identifier) ⟨.word h, fun other more hmore hshape ↦ ?_⟩
    obtain ⟨hnil, rfl | ⟨m, hm, -, hspelling⟩⟩ := hothers other more hmore hshape
    · exact ⟨hnil, .inl rfl⟩
    · refine absurd (decide_eq_true ?_) (List.find?_eq_none.mp hkeyword m hm)
      rw [← hspelling, String.ofList_toList]

/-! ### Numbers and marks -/

/-- Neither a row of digits nor a float goes on as a float in what does not continue it. -/
theorem eq_nil_of_isFloat (h : IsFloat (text ++ more))
    (hlast : ∃ v c, text = v ++ [c] ∧ (isDigit c = true ∨ c = '.')) (hmore : more <+: rest)
    (hend : Ends rest) : more = [] := by
  obtain ⟨v, c, rfl, hc⟩ := hlast
  obtain ⟨tail, rfl⟩ := hmore
  cases more with
  | nil => rfl
  | cons x more =>
    have hchain := h.isChain
    rw [List.append_assoc, List.singleton_append, List.isChain_append_cons_cons] at hchain
    obtain ⟨hword, hpoint⟩ := hend x rfl
    exact (hchain.2.1 hc).elim (fun h ↦ absurd h (Bool.eq_false_iff.mp hword)) (absurd · hpoint)

theorem wins_integer (hc : isDigit c = true) (hwhole : ∀ x ∈ whole, isDigit x = true)
    (hend : Ends rest) : Wins .integer (c :: whole) rest := by
  have hdigits : ∀ x ∈ c :: whole, isDigit x = true := List.forall_mem_cons.mpr ⟨hc, hwhole⟩
  refine ⟨.integer hc hwhole, fun other more hmore hshape ↦ ?_⟩
  rcases hshape.of_isDigit hc with ⟨rfl, hall⟩ | ⟨-, hfloat⟩
  · refine ⟨eq_nil_of_forall hmore (List.forall_mem_append.mp hall).2 fun x hx hdigit ↦ ?_,
      .inl rfl⟩
    exact Bool.eq_false_iff.mp (hend x hx).1 (isWordChar_of_isDigit hdigit)
  · have hlast : ∃ v d, c :: whole = v ++ [d] ∧ (isDigit d = true ∨ d = '.') :=
      ⟨(c :: whole).dropLast, (c :: whole).getLast (List.cons_ne_nil _ _),
        (List.dropLast_concat_getLast _).symm, .inl (hdigits _ (List.getLast_mem _))⟩
    change IsFloat (c :: whole ++ more) at hfloat
    obtain rfl := eq_nil_of_isFloat hfloat hlast hmore hend
    rw [List.append_nil] at hfloat
    obtain ⟨x, hx, hdigit⟩ := hfloat.exists_not_isDigit
    cases hdigit.symm.trans (hdigits x hx)

theorem wins_float (h : IsFloat text) (hend : Ends rest) : Wins .float text rest := by
  refine ⟨.float h, fun other more hmore hshape ↦ ?_⟩
  obtain ⟨c, cs, rfl⟩ := List.exists_cons_of_ne_nil (Kind.Shape.float h).ne_nil
  rcases hshape.of_isDigit (isDigit_of_isFloat h) with ⟨-, hall⟩ | ⟨rfl, hfloat⟩
  · obtain ⟨x, hx, hdigit⟩ := h.exists_not_isDigit
    have hdigits : ∀ x ∈ c :: cs, isDigit x = true := List.forall_mem_cons.mpr
      ⟨isDigit_of_isFloat h, (List.forall_mem_append.mp hall).1⟩
    cases hdigit.symm.trans (hdigits x hx)
  · exact ⟨eq_nil_of_isFloat hfloat h.exists_last hmore hend, .inl rfl⟩

/-- A row of digits is an integer, if it is not too large. -/
theorem isFirst_whole (hc : isDigit c = true) (hwhole : ∀ x ∈ whole, isDigit x = true)
    (hend : Ends rest) :
    (if digitsValue (c :: whole) ≤ maxInt then Piece.token (.int (digitsValue (c :: whole)))
      else .invalid).IsFirst (c :: whole) rest :=
  (wins_integer hc hwhole hend).isFirst

/-- A mark of one character is a word of its own; a slash must not begin a comment. -/
theorem isFirst_mark (h : m.text.toList = [c]) (hc : c ≠ '/') :
    (Piece.token (.mark m)).IsFirst [c] rest := by
  have hsymbol := isSymbol_of_text h
  refine Wins.isFirst (k := .mark m) ⟨.symbol hsymbol h, fun other more _ hshape ↦ ?_⟩
  obtain ⟨rfl, m', rfl, hspelling | ⟨-, rfl⟩⟩ := hshape.of_symbol hsymbol hc
  · have hsame := eq_of_text_eq (String.toList_injective (hspelling.trans h.symm))
    exact ⟨rfl, .inl (congrArg _ hsame)⟩
  · cases m <;> cases h

theorem isFirst_greekPi : (Piece.token (.mark .pi)).IsFirst ['π'] rest := by
  refine Wins.isFirst (k := .mark .pi) ⟨.greekPi, fun other more _ hshape ↦ ?_⟩
  obtain ⟨rfl, m, rfl, hspelling | ⟨rfl, -⟩⟩ := hshape.of_symbol (by decide) (by decide)
  · cases m <;> cases hspelling
  · exact ⟨rfl, .inl rfl⟩

theorem isFirst_slash (h : ∀ x, rest.head? = some x → x ≠ '/' ∧ x ≠ '*') :
    (Piece.token (.mark .slash)).IsFirst ['/'] rest := by
  refine Wins.isFirst (k := .mark .slash) ⟨.symbol (by decide) rfl, ?_⟩
  rintro other more ⟨tail, rfl⟩ hshape
  rcases hshape.of_slash with ⟨rfl, rfl⟩ | ⟨-, _, -, rfl⟩ | ⟨-, _, -, rfl⟩ | ⟨-, _, -, rfl⟩
  · exact ⟨rfl, .inl rfl⟩
  · exact absurd rfl (h _ rfl).1
  · exact absurd rfl (h _ rfl).2
  · exact absurd rfl (h _ rfl).2

theorem cut_whole (hc : isDigit c = true) (hwhole : ∀ x ∈ whole, isDigit x = true)
    (hend : Ends rest) : cut (c :: whole ++ rest) =
      (if digitsValue (c :: whole) ≤ maxInt then some (.int (digitsValue (c :: whole)))
        else none) ::
        cut rest := by
  rw [(isFirst_whole hc hwhole hend).cut]
  split <;> rfl

theorem cut_mark (h : m.text.toList = [c]) (hc : c ≠ '/') :
    cut (c :: rest) = some (.mark m) :: cut rest :=
  (isFirst_mark h hc).cut

theorem cut_slash (h : ∀ x, rest.head? = some x → x ≠ '/' ∧ x ≠ '*') :
    cut ('/' :: rest) = some (.mark .slash) :: cut rest :=
  (isFirst_slash h).cut

end Pieces

/-! ### Names and numbers -/

/-- A name of a qubit, a gate or a symbol: a word that is no keyword. -/
def IsName (name : String) : Prop :=
  IsWord name.toList ∧ Mark.keyword? name = none

instance : DecidablePred IsName := fun name ↦
  inferInstanceAs (Decidable (IsWord name.toList ∧ Mark.keyword? name = none))

section Names

variable {name : String} {m : Mark} {n : Nat} {cs rest : List Char}

theorem isFirst_name (h : IsName name) (hend : Ends rest) :
    (Piece.token (.identifier name)).IsFirst name.toList rest := by
  have hfirst := isFirst_word h.1 hend
  rwa [String.ofList_toList, wordToken, h.2] at hfirst

theorem Mark.isWord_text : ∀ m ∈ Mark.keywords,
    IsWord m.text.toList ∧ Mark.keyword? m.text = some m := by
  decide

theorem isFirst_keyword (hm : m ∈ Mark.keywords) (hend : Ends rest) :
    (Piece.token (.mark m)).IsFirst m.text.toList rest := by
  obtain ⟨hword, hkeyword⟩ := Mark.isWord_text m hm
  have hfirst := isFirst_word hword hend
  rwa [String.ofList_toList, wordToken, hkeyword] at hfirst

theorem cut_name (h : IsName name) (hend : Ends rest) :
    cut (name.toList ++ rest) = some (.identifier name) :: cut rest :=
  (isFirst_name h hend).cut

theorem cut_keyword (hm : m ∈ Mark.keywords) (hend : Ends rest) :
    cut (m.text.toList ++ rest) = some (.mark m) :: cut rest :=
  (isFirst_keyword hm hend).cut

theorem isName_of_piece {c : Char} (h : (piece c cs).1 = .token (.identifier name)) :
    IsName name := by
  cases hchoose : choose (c :: cs) rules with
  | none =>
    simp only [piece, hchoose] at h
    cases h
  | some best =>
    obtain ⟨rule, n⟩ := best
    obtain ⟨w, rfl, hbest⟩ := isBest_of_choose hchoose
    simp only [piece, hchoose, ← List.prefix_iff_eq_take.mp hbest.starts] at h
    have hshape := shape_of_matches hbest.mem hbest.accepted
    cases hkind : rule.kind with
    | identifier =>
      rw [hkind] at h hshape
      cases h
      cases hshape with
      | word hword =>
        refine ⟨by rwa [String.toList_ofList], ?_⟩
        -- Otherwise the rule of the keyword would have been taken.
        rw [Option.eq_none_iff_forall_ne_some]
        intro m hkeyword
        obtain ⟨hm, hspelling⟩ := text_of_keyword? hkeyword
        obtain ⟨rule', hrule', hkind', hmatch⟩ := exists_rule_of_shape (.keyword hm hspelling)
        exact absurd (priority_lt hbest.mem hkind hrule' hkind')
          (Nat.not_lt.mpr (hbest.highest rule' hrule' hmatch))
    | integer =>
      rw [hkind, Kind.piece] at h
      split at h <;> cases h
    | skipped | mark | float | string | unclosed =>
      rw [hkind] at h
      cases h

/-- The identifiers of a text are names. -/
theorem isName_of_mem_cut (h : some (.identifier name) ∈ cut cs) : IsName name :=
  forall_mem_cut (P := fun t ↦ ∀ name, t = .identifier name → IsName name)
    (fun _ _ _ hpiece _ ht ↦ isName_of_piece (ht ▸ hpiece)) cs _ h _ rfl

theorem isDigit_eq (c : Char) : isDigit c = c.isDigit := by
  rw [Bool.eq_iff_iff, isDigit, Char.isDigit, Bool.and_eq_true, Bool.and_eq_true, decide_eq_true_eq,
    decide_eq_true_eq, decide_eq_true_eq, decide_eq_true_eq]
  rfl

theorem digitsValue_toDigits (n : Nat) : digitsValue (Nat.toDigits 10 n) = n :=
  Nat.ofDigitChars_ten_toDigits

/-- Integers are read back from their digits. -/
theorem cut_repr (hn : n ≤ maxInt) (hend : Ends rest) :
    cut (n.repr.toList ++ rest) = some (.int n) :: cut rest := by
  rw [Nat.toList_repr]
  have hdigits : ∀ c ∈ Nat.toDigits 10 n, isDigit c = true := fun c hc ↦
    (isDigit_eq c).trans (Nat.isDigit_of_mem_toDigits (by decide) (by decide) hc)
  have hvalue := digitsValue_toDigits n
  cases htext : Nat.toDigits 10 n with
  | nil => exact absurd htext Nat.toDigits_ne_nil
  | cons c whole =>
    rw [htext, List.forall_mem_cons] at hdigits
    rw [cut_whole hdigits.1 hdigits.2 hend, ← htext, hvalue, if_pos hn]

end Names

/-! ### Texts in front of other texts -/

/-- A text that is cut into some words wherever it stands, if what follows does not continue it. -/
def Cuts (text : List Char) (ws : List (Option Token)) : Prop :=
  ∀ rest, Ends rest → cut (text ++ rest) = ws ++ cut rest

section Cuts

variable {c : Char} {m : Mark} {n : Nat} {name : String} {text text' : List Char}
  {ws ws' : List (Option Token)}

theorem Cuts.cut_eq (h : Cuts text ws) : cut text = ws := by
  have hcut := h [] ends_nil
  rwa [List.append_nil, cut_nil, List.append_nil] at hcut

theorem cuts_nil : Cuts [] [] :=
  fun _ _ ↦ rfl

theorem cuts_name (h : IsName name) : Cuts name.toList [some (.identifier name)] :=
  fun _ hrest ↦ cut_name h hrest

theorem cuts_keyword (h : m ∈ Mark.keywords) : Cuts m.text.toList [some (.mark m)] :=
  fun _ hrest ↦ cut_keyword h hrest

theorem cuts_repr (h : n ≤ maxInt) : Cuts n.repr.toList [some (.int n)] :=
  fun _ hrest ↦ cut_repr h hrest

/-- A text may be followed by another one that does not continue it. -/
theorem Cuts.append (h : Cuts text ws) (h' : Cuts (c :: text') ws')
    (hc : isWordChar c = false ∧ c ≠ '.') : Cuts (text ++ c :: text') (ws ++ ws') := by
  intro rest hrest
  have hends : Ends (c :: text' ++ rest) := ends_cons.mpr hc
  rw [List.append_assoc, h _ hends, h' rest hrest, List.append_assoc]

theorem Cuts.blank (h : Cuts text ws) (hc : isBlank c = true) : Cuts (c :: text) ws := by
  intro rest hrest
  rw [List.cons_append, cut_blank hc, h rest hrest]

/-- A mark in front of a text is a word of its own. -/
theorem Cuts.mark (h : Cuts text ws) (hm : m.text.toList = [c]) (hc : c ≠ '/') :
    Cuts (c :: text) (some (.mark m) :: ws) := by
  intro rest hrest
  rw [List.cons_append, cut_mark hm hc, h rest hrest, List.cons_append]

theorem Cuts.slash (h : Cuts (c :: text) ws) (hc : c ≠ '/' ∧ c ≠ '*') :
    Cuts ('/' :: c :: text) (some (.mark .slash) :: ws) := by
  intro rest hrest
  have hhead : ∀ x, (c :: text ++ rest).head? = some x → x ≠ '/' ∧ x ≠ '*' := by
    intro x hx
    cases hx
    exact hc
  rw [List.cons_append, cut_slash hhead, h rest hrest, List.cons_append]

end Cuts

end Peephole.Source
