import Peephole.Yaml.Cursor
import Peephole.Yaml.Scalar

/-!
# Scalars that flow over lines

Plain and quoted scalars. Their parts are divided by gaps: blanks within a line, which stay as they
are, or line breaks, which are folded. Indentation after a break and blanks before it are dropped.
-/

set_option autoImplicit false
set_option relaxedAutoImplicit false

namespace Peephole.Yaml

/-- What stands between two parts of a scalar. -/
structure Gap where
  /-- The blanks before the first line break. -/
  blanks : List Char
  /-- The first line break. -/
  first : List Char
  /-- The further line breaks. -/
  more : List Char
  /-- Whether the gap reaches over the end of a line. -/
  broken : Bool

namespace Gap

def none : Gap :=
  ⟨[], [], [], false⟩

/-- The gap after a line break that is not part of the text. -/
def escapedBreak : Gap :=
  ⟨[], [], [], true⟩

/-- What a gap adds to the text. -/
def text (g : Gap) : List Char :=
  if g.broken then fold g.first g.more else g.blanks

/-- The gap with one more blank. -/
def addBlank (g : Gap) (ch : Char) : Gap :=
  if g.broken then g else { g with blanks := g.blanks ++ [ch] }

/-- The gap with one more line break. -/
def addBreak (g : Gap) (lineBreak : List Char) : Gap :=
  if g.broken then { g with more := g.more ++ lineBreak } else ⟨[], lineBreak, [], true⟩

end Gap

/-- Reads a gap to its end. Before the column `indent` a line must not be indented by tabs. -/
def gap? (indent : Nat) (g : Gap) (c : Cursor) : Option (Gap × Cursor) :=
  match _h : c.rest with
  | [] => some (g, c)
  | ch :: _ =>
    if isBlank ch then
      if g.broken && ch = '\t' && c.column < indent then none
      else gap? indent (g.addBlank ch) (c.skip 1)
    else if _hb : isBreak ch then gap? indent (g.addBreak c.breakText) c.skipBreak
    else some (g, c)
termination_by c.rest.length
decreasing_by
  · exact Cursor.length_skip_lt _h Nat.zero_lt_one
  · exact Cursor.length_skipBreak_lt _h _hb

theorem length_le_of_gap? {indent : Nat} {g g' : Gap} {c c' : Cursor}
    (h : gap? indent g c = some (g', c')) : c'.rest.length ≤ c.rest.length := by
  fun_induction gap? indent g c with grind [Cursor.length_skip_le, Cursor.length_skipBreak_le]

/-- The characters that have a meaning within brackets. -/
def isFlowIndicator (c : Char) : Bool :=
  [',', '[', ']', '\x7b', '\x7d'].contains c

/-- The number of characters of a plain scalar up to a blank or an indicator. Within brackets a colon
must not stand right before an indicator. -/
def plainLength? (inFlow : Bool) : List Char → Option Nat
  | [] => some 0
  | ch :: rest =>
    if isBlank ch || isBreak ch then some 0
    else if inFlow && ch = ':' && rest.head?.any (fun d ↦ d = '?' || isFlowIndicator d) then none
    else if ch = ':' && endsWord rest.head? then some 0
    else if inFlow && isFlowIndicator ch then some 0
    else (plainLength? inFlow rest).map (· + 1)

/-- A scalar that has been read, with the place after it. -/
structure PlainEnd where
  text : List Char
  cursor : Cursor
  /-- Whether a line break follows the text. -/
  broken : Bool

/-- Reads a plain scalar to its end, given its text so far and the gap after it. It ends at the mark
of a document, at a comment, at an indicator, and outside of brackets at a line that is indented less
than `indent`. -/
def plain? (inFlow : Bool) (indent : Nat) (text : List Char) (g : Gap) (c : Cursor) :
    Option PlainEnd :=
  if c.mark?.isSome || c.isAt '#' then some ⟨text, c, g.broken⟩
  else
    match _h : c.rest with
    | [] => some ⟨text, c, g.broken⟩
    | ch :: rest =>
      match plainLength? inFlow (ch :: rest) with
      | none => none
      | some 0 => some ⟨text, c, g.broken⟩
      | some (n + 1) =>
        let text := text ++ g.text ++ c.rest.take (n + 1)
        match _hg : gap? indent .none (c.skip (n + 1)) with
        | none => none
        | some (g, c') =>
          if !inFlow && c'.column < indent then some ⟨text, c', g.broken⟩
          else plain? inFlow indent text g c'
termination_by c.rest.length
decreasing_by
  exact Nat.lt_of_le_of_lt (length_le_of_gap? _hg) (Cursor.length_skip_lt _h (Nat.succ_pos n))

/-- The characters that letters after a backslash stand for. -/
def escaped? : Char → Option Char
  | '0' => some (Char.ofNat 0)
  | 'a' => some (Char.ofNat 0x7)
  | 'b' => some (Char.ofNat 0x8)
  | 't' => some '\t'
  | '\t' => some '\t'
  | 'n' => some '\n'
  | 'v' => some (Char.ofNat 0xB)
  | 'f' => some (Char.ofNat 0xC)
  | 'r' => some '\r'
  | 'e' => some (Char.ofNat 0x1B)
  | ' ' => some ' '
  | '"' => some '"'
  | '/' => some '/'
  | '\\' => some '\\'
  | 'N' => some (Char.ofNat 0x85)
  | '_' => some (Char.ofNat 0xA0)
  | 'L' => some (Char.ofNat 0x2028)
  | 'P' => some (Char.ofNat 0x2029)
  | _ => none

/-- The number of digits that follow a letter after a backslash. -/
def codeLength? : Char → Option Nat
  | 'x' => some 2
  | 'u' => some 4
  | 'U' => some 8
  | _ => none

/-- The character after a backslash, with the characters it takes. -/
def escape? : List Char → Option (Char × Nat)
  | [] => none
  | e :: rest =>
    match codeLength? e with
    | none => (escaped? e).map fun ch ↦ (ch, 1)
    | some n => do
      if rest.length < n then none
      let code ← Text.number? 16 (rest.take n)
      if code.isValidChar then return (Char.ofNat code, n + 1) else none

/-- Reads a quoted scalar after its opening quote `q` to its end, given its text in reverse and the
gap after it. A single quote is written twice between single quotes, and between double quotes a
backslash begins an escape. -/
def quoted? (q : Char) (reversed : List Char) (g : Gap) (c : Cursor) :
    Option (List Char × Cursor) :=
  if c.mark?.isSome then none
  else
    match _h : c.rest with
    | [] => none
    | ch :: rest =>
      let next (more : List Char) : List Char := more.reverse ++ (g.text.reverse ++ reversed)
      if isBlank ch then quoted? q reversed (g.addBlank ch) (c.skip 1)
      else if _hb : isBreak ch then quoted? q reversed (g.addBreak c.breakText) c.skipBreak
      else if ch = q then
        if q = '\x27' && rest.head? = some q then quoted? q (next [q]) .none (c.skip 2)
        else some ((next []).reverse, c.skip 1)
      else if q = '"' && ch = '\\' then
        if rest.head?.any isBreak then quoted? q (next []) .escapedBreak (c.skip 1).skipBreak
        else
          match escape? rest with
          | none => none
          | some (e, n) => quoted? q (next [e]) .none (c.skip (n + 1))
      else quoted? q (next [ch]) .none (c.skip 1)
termination_by c.rest.length
decreasing_by
  · exact Cursor.length_skip_lt _h Nat.zero_lt_one
  · exact Cursor.length_skipBreak_lt _h _hb
  · exact Cursor.length_skip_lt _h Nat.zero_lt_two
  · exact Nat.lt_of_le_of_lt (c.skip 1).length_skipBreak_le (Cursor.length_skip_lt _h Nat.zero_lt_one)
  · exact Cursor.length_skip_lt _h (Nat.succ_pos n)
  · exact Cursor.length_skip_lt _h Nat.zero_lt_one

end Peephole.Yaml
