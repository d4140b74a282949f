import Peephole.Proofs.Numerals
import Peephole.Proofs.Spelling
import Peephole.Source.Emit

/-!
# The words of written programs

`Program.pieces` gives the words that the text of a program is made of, and `cut_emit` says that
cutting the text gives these words. Names, indices and numbers of guards have to be such that they
can be written (`Instruction.Writable`). The number of an angle is the only piece that may belong to
no token.
-/

set_option autoImplicit false
set_option relaxedAutoImplicit false

namespace Peephole

open Source Source.Lexer Decimal

/-! ### Angles -/

namespace Source.Operator

/-- The text of an operator between its operands. -/
def text : Operator → String
  | add => " + "
  | sub => " - "
  | mul => "*"
  | div => "/"

end Source.Operator

namespace Angle

/-- The words of an angle that is put in parentheses if it binds less tightly than `least`. -/
def enclosed (least : Nat) (e : Angle) (ws : List (Option Token)) : List (Option Token) :=
  if e.precedence < least then some (.mark .leftParen) :: (ws ++ [some (.mark .rightParen)]) else ws

/-- The words of the text of an angle. -/
def pieces : Angle → List (Option Token)
  | constant v => numberPieces v
  | symbol name => [some (.identifier name)]
  | pi => [some (.mark .pi)]
  | neg e => some (.mark .minus) :: e.enclosed 4 e.pieces
  | add a b => a.enclosed 1 a.pieces ++ some (.mark .plus) :: b.enclosed 2 b.pieces
  | sub a b => a.enclosed 1 a.pieces ++ some (.mark .minus) :: b.enclosed 2 b.pieces
  | mul a b => a.enclosed 2 a.pieces ++ some (.mark .star) :: b.enclosed 3 b.pieces
  | div a b => a.enclosed 2 a.pieces ++ some (.mark .slash) :: b.enclosed 3 b.pieces

/-- Induction on angles with one case for all operators. -/
@[elab_as_elim]
theorem operatorInduction {motive : Angle → Prop} (constant : ∀ v, motive (.constant v))
    (symbol : ∀ name, motive (.symbol name)) (pi : motive .pi)
    (neg : ∀ e, motive e → motive (.neg e))
    (binary : ∀ (op : Operator) a b, motive a → motive b → motive (op.combine a b)) (e : Angle) :
    motive e := by
  induction e with
  | constant v => exact constant v
  | symbol name => exact symbol name
  | pi => exact pi
  | neg e ih => exact neg e ih
  | add a b iha ihb => exact binary .add a b iha ihb
  | sub a b iha ihb => exact binary .sub a b iha ihb
  | mul a b iha ihb => exact binary .mul a b iha ihb
  | div a b iha ihb => exact binary .div a b iha ihb

variable {e a b : Angle}

theorem precedence_combine (op : Operator) : (op.combine a b).precedence = op.precedence := by
  cases op <;> rfl

theorem render_combine (op : Operator) : (op.combine a b).render =
    a.enclose op.precedence a.render ++ op.text ++ b.enclose (op.precedence + 1) b.render := by
  cases op <;> rfl

theorem pieces_combine (op : Operator) : (op.combine a b).pieces =
    a.enclosed op.precedence a.pieces ++
      some (.mark op.mark) :: b.enclosed (op.precedence + 1) b.pieces := by
  cases op <;> rfl

theorem cuts_enclose (least : Nat) (h : Cuts e.render.toList e.pieces) :
    Cuts (e.enclose least e.render).toList (e.enclosed least e.pieces) := by
  unfold enclose enclosed
  split
  · have hclose : Cuts [')'] [some (.mark .rightParen)] := cuts_nil.mark rfl (by decide)
    have hparens := (h.append hclose (by decide)).mark (m := .leftParen) (c := '(') rfl (by decide)
    simpa using hparens
  · exact h

/-- A slash in front of the text of an angle does not begin a comment. -/
def Begins (text : String) : Prop :=
  ∃ c cs, text.toList = c :: cs ∧ c ≠ '/' ∧ c ≠ '*'

theorem Begins.append {text : String} (h : Begins text) (text' : String) :
    Begins (text ++ text') := by
  obtain ⟨c, cs, htext, hc⟩ := h
  exact ⟨c, cs ++ text'.toList, by rw [String.toList_append, htext, List.cons_append], hc⟩

theorem begins_enclose (least : Nat) (h : Begins e.render) : Begins (e.enclose least e.render) := by
  unfold enclose
  split
  · exact Begins.append ⟨'(', e.render.toList, by simp, by decide⟩ _
  · exact h

theorem begins_of_isWordChar {text : String} {c : Char} {cs : List Char}
    (htext : text.toList = c :: cs)
    (hc : isWordChar c = true) : Begins text := by
  refine ⟨c, cs, htext, ?_, ?_⟩
  · rintro rfl
    exact absurd hc (by decide)
  · rintro rfl
    exact absurd hc (by decide)

theorem begins_name {name : String} (h : IsName name) : Begins name := by
  cases htext : name.toList with
  | nil => exact absurd h.1 (htext ▸ id)
  | cons c cs =>
    have hword := h.1
    rw [htext] at hword
    exact begins_of_isWordChar htext (by rw [isWordChar, hword.1, Bool.true_or])

theorem begins_number (v : Float) : Begins (Layout.plain.render v) := by
  have htext := toList_render_plain v
  cases hnegative : isNegative v with
  | true => exact ⟨'-', magnitudeText v, by rw [htext, hnegative]; rfl, by decide⟩
  | false =>
    rw [hnegative] at htext
    obtain ⟨c, cs, hmagnitude, hc⟩ := exists_magnitudeText_eq v
    exact begins_of_isWordChar (htext.trans hmagnitude) hc

theorem begins_render (h : ∀ name ∈ e.symbols, IsName name) : Begins e.render := by
  induction e using operatorInduction with
  | constant v => exact begins_number v
  | symbol name => exact begins_name (h name List.mem_cons_self)
  | pi => exact ⟨'p', ['i'], rfl, by decide⟩
  | neg e => exact ⟨'-', (e.enclose 4 e.render).toList, by simp [render], by decide⟩
  | binary op a b iha =>
    rw [symbols_combine] at h
    have hleft := begins_enclose op.precedence (iha fun name hname ↦ h name (by simp [hname]))
    rw [render_combine]
    exact (hleft.append _).append _

theorem cuts_operator (op : Operator) {text : String} {ws : List (Option Token)}
    (h : Cuts text.toList ws) (hbegins : Begins text) :
    ∃ c cs, op.text.toList ++ text.toList = c :: cs ∧ (isWordChar c = false ∧ c ≠ '.') ∧
      Cuts (c :: cs) (some (.mark op.mark) :: ws) := by
  cases op with
  | add => exact ⟨' ', _, rfl, by decide, ((h.blank rfl).mark rfl (by decide)).blank rfl⟩
  | sub => exact ⟨' ', _, rfl, by decide, ((h.blank rfl).mark rfl (by decide)).blank rfl⟩
  | mul => exact ⟨'*', _, rfl, by decide, h.mark rfl (by decide)⟩
  | div =>
    obtain ⟨c, cs, htext, hc⟩ := hbegins
    rw [htext] at h ⊢
    exact ⟨'/', _, rfl, by decide, h.slash hc⟩

/-- The text of an angle is cut into the words of the angle. -/
theorem cuts_render (h : ∀ name ∈ e.symbols, IsName name) : Cuts e.render.toList e.pieces := by
  induction e using operatorInduction with
  | constant v => exact cuts_number v
  | symbol name => exact cuts_name (h name List.mem_cons_self)
  | pi => exact cuts_keyword (m := .pi) (by decide)
  | neg e ih =>
    have hneg := (cuts_enclose 4 (ih h)).mark (m := .minus) (c := '-') rfl (by decide)
    simpa [render, pieces] using hneg
  | binary op a b iha ihb =>
    rw [symbols_combine, List.forall_mem_append] at h
    have hleft := cuts_enclose op.precedence (iha h.1)
    have hright := cuts_enclose (op.precedence + 1) (ihb h.2)
    obtain ⟨c, cs, htext, hc, hcuts⟩ :=
      cuts_operator op hright (begins_enclose _ (begins_render h.2))
    have happend := hleft.append hcuts hc
    rwa [← htext, ← List.append_assoc, ← String.toList_append, ← String.toList_append,
      ← render_combine, ← pieces_combine] at happend

end Angle

/-! ### Instructions -/

/-- The words of items with commas between them. -/
def commaSeparated (items : List (List (Option Token))) : List (Option Token) :=
  [some (.mark .comma)].intercalate items

def Qubit.pieces (q : Qubit) : List (Option Token) :=
  match q.index with
  | some i => [some (.identifier q.register), some (.mark .leftBracket), some (.int i),
      some (.mark .rightBracket)]
  | none => [some (.identifier q.register)]

/-- The words of a declaration with its semicolon. -/
def Declaration.pieces (d : Declaration) : List (Option Token) :=
  match d.size with
  | some n => [some (.mark .qubit), some (.mark .leftBracket), some (.int n),
      some (.mark .rightBracket), some (.identifier d.name), some (.mark .semicolon)]
  | none => [some (.mark .qubit), some (.identifier d.name), some (.mark .semicolon)]

def modifierPieces (negated : Bool) (count : Nat) : List (Option Token) :=
  if count = 0 then []
  else [some (.mark (modifierMark negated)), some (.mark .leftParen), some (.int count),
    some (.mark .rightParen), some (.mark .atSign)]

def paramPieces (params : List Angle) : List (Option Token) :=
  if params.isEmpty then []
  else some (.mark .leftParen) ::
    (commaSeparated (params.map Angle.pieces) ++ [some (.mark .rightParen)])

/-- The guards of an application, the negated ones first. -/
def Application.orderedGuards (a : Application) : List Guard :=
  a.guards.filter (·.negated) ++ a.guards.filter (!·.negated)

/-- The words of an application with its semicolon. -/
def Application.pieces (a : Application) : List (Option Token) :=
  modifierPieces true (a.guards.filter (·.negated)).length ++
    modifierPieces false (a.guards.filter (!·.negated)).length ++
    some (.identifier a.gate.name) :: (paramPieces a.gate.params ++
      (commaSeparated ((a.orderedGuards.map Guard.qubit ++ a.targets).map Qubit.pieces) ++
        [some (.mark .semicolon)]))

def Instruction.pieces : Instruction → List (Option Token)
  | declare d => d.pieces
  | apply a => a.pieces

/-- The words of the text of a program. -/
def Program.pieces (p : Program) : List (Option Token) :=
  p.flatMap Instruction.pieces

/-- A reference with a name and an index that can be written. -/
structure Qubit.Writable (q : Qubit) : Prop where
  register : IsName q.register
  index : ∀ i, q.index = some i → i ≤ maxInt

structure Declaration.Writable (d : Declaration) : Prop where
  name : IsName d.name
  size : ∀ n, d.size = some n → n ≤ maxInt

structure Application.Writable (a : Application) : Prop where
  gate : IsName a.gate.name
  symbols : ∀ θ ∈ a.gate.params, ∀ name ∈ θ.symbols, IsName name
  targets : ∀ q ∈ a.targets, q.Writable
  guards : ∀ c ∈ a.guards, c.qubit.Writable
  count : a.guards.length ≤ maxInt

/-- An instruction whose names and numbers can be written. -/
def Instruction.Writable : Instruction → Prop
  | declare d => d.Writable
  | apply a => a.Writable

@[simp]
theorem commaSeparated_singleton {ws : List (Option Token)} : commaSeparated [ws] = ws :=
  List.intercalate_singleton

@[simp]
theorem commaSeparated_cons_cons {ws vs : List (Option Token)}
    {items : List (List (Option Token))} :
    commaSeparated (ws :: vs :: items) =
      ws ++ some (.mark .comma) :: commaSeparated (vs :: items) := by
  simp [commaSeparated]

section Instructions

variable {α : Type} {f : α → String} {g : α → List (Option Token)} {xs : List α}

/-- A list of texts with commas between them is cut into the words of the texts with commas. -/
theorem cuts_intercalate (h : ∀ x ∈ xs, Cuts (f x).toList (g x)) :
    Cuts (", ".intercalate (xs.map f)).toList (commaSeparated (xs.map g)) := by
  induction xs with
  | nil => exact cuts_nil
  | cons x xs ih =>
    rw [List.forall_mem_cons] at h
    cases xs with
    | nil => simpa using h.1
    | cons y ys =>
      have hmore : Cuts (',' :: ' ' :: (", ".intercalate ((y :: ys).map f)).toList)
          (some (.mark .comma) :: commaSeparated ((y :: ys).map g)) :=
        ((ih h.2).blank rfl).mark rfl (by decide)
      simpa using h.1.append hmore (by decide)

variable {text : List Char} {ws : List (Option Token)}

theorem Qubit.Writable.cuts {q : Qubit} (h : q.Writable) : Cuts q.render.toList q.pieces := by
  obtain ⟨register, index⟩ := q
  cases index with
  | none => exact cuts_name h.register
  | some i =>
    have hclose : Cuts [']'] [some (.mark .rightBracket)] := cuts_nil.mark rfl (by decide)
    have hindex :=
      ((cuts_repr (h.index i rfl)).append hclose (by decide)).mark (m := .leftBracket) (c := '[')
        rfl (by decide)
    simpa [render, pieces] using (cuts_name h.register).append hindex (by decide)

theorem Declaration.Writable.cuts {d : Declaration} (h : d.Writable) :
    Cuts (d.render ++ ";").toList d.pieces := by
  have hend : Cuts [';'] [some (.mark .semicolon)] := cuts_nil.mark rfl (by decide)
  have hname := ((cuts_name h.name).append hend (by decide)).blank (c := ' ') rfl
  have hqubit : Cuts "qubit".toList [some (.mark .qubit)] := cuts_keyword (m := .qubit) (by decide)
  obtain ⟨name, size⟩ := d
  cases size with
  | none => simpa [render, pieces] using hqubit.append hname (by decide)
  | some n =>
    have hclose := hname.mark (m := .rightBracket) (c := ']') rfl (by decide)
    have hsize := ((cuts_repr (h.size n rfl)).append hclose (by decide)).mark
      (m := .leftBracket) (c := '[') rfl (by decide)
    simpa [render, pieces] using hqubit.append hsize (by decide)

theorem cuts_modifier (negated : Bool) {count : Nat} (hcount : count ≤ maxInt) (h : Cuts text ws) :
    Cuts ((renderModifier (modifierMark negated).text count).toList ++ text)
      (modifierPieces negated count ++ ws) := by
  unfold renderModifier modifierPieces
  split
  · exact h
  · have hat := (h.blank (c := ' ') rfl).mark (m := .atSign) (c := '@') rfl (by decide)
    have hclose := (hat.blank (c := ' ') rfl).mark (m := .rightParen) (c := ')') rfl (by decide)
    have hcounted := ((cuts_repr hcount).append hclose (by decide)).mark (m := .leftParen)
      (c := '(') rfl (by decide)
    have hkeyword : modifierMark negated ∈ Mark.keywords := by
      cases negated <;> decide
    simpa using (cuts_keyword hkeyword).append hcounted (by decide)

theorem Gate.cuts_render {g : Gate} (hname : IsName g.name)
    (hsymbols : ∀ θ ∈ g.params, ∀ name ∈ θ.symbols, IsName name) (h : Cuts (' ' :: text) ws) :
    Cuts (g.render.toList ++ ' ' :: text)
      (some (.identifier g.name) :: (paramPieces g.params ++ ws)) := by
  unfold render renderParams paramPieces
  cases hparams : g.params.isEmpty with
  | true => simpa using (cuts_name hname).append h (by decide)
  | false =>
    have hlist := cuts_intercalate fun θ hθ ↦ Angle.cuts_render (hsymbols θ hθ)
    have hclose := h.mark (m := .rightParen) (c := ')') rfl (by decide)
    have hparens := (hlist.append hclose (by decide)).mark (m := .leftParen) (c := '(') rfl
      (by decide)
    simpa using (cuts_name hname).append hparens (by decide)

theorem Application.Writable.cuts {a : Application} (h : a.Writable) :
    Cuts a.emit.toList a.pieces := by
  have hend : Cuts [';'] [some (.mark .semicolon)] := cuts_nil.mark rfl (by decide)
  have hoperands : ∀ q ∈ a.orderedGuards.map Guard.qubit ++ a.targets, q.Writable := by
    intro q hq
    simp only [orderedGuards, List.mem_append, List.mem_map, List.mem_filter] at hq
    rcases hq with ⟨c, hc | hc, rfl⟩ | hq
    · exact h.guards c hc.1
    · exact h.guards c hc.1
    · exact h.targets q hq
  have hlist := (cuts_intercalate fun q hq ↦ (hoperands q hq).cuts).append hend (by decide)
  have hgate := Gate.cuts_render h.gate h.symbols (hlist.blank (c := ' ') rfl)
  have hcount (f : Guard → Bool) : (a.guards.filter f).length ≤ maxInt :=
    Nat.le_trans (List.length_filter_le f a.guards) h.count
  have hplain := cuts_modifier false (hcount (!·.negated)) hgate
  have hnegated := cuts_modifier true (hcount (·.negated)) hplain
  simpa [emit, pieces, orderedGuards, modifierMark, Mark.text] using hnegated

theorem Instruction.Writable.cuts {i : Instruction} (h : i.Writable) :
    Cuts i.emit.toList i.pieces := by
  cases i with
  | declare d => exact Declaration.Writable.cuts h
  | apply a => exact Application.Writable.cuts h

/-- The text of a program is cut into the words of the program. -/
theorem Program.cut_emit {p : Program} (h : ∀ i ∈ p, i.Writable) :
    cut p.emit.toList = p.pieces := by
  induction p with
  | nil => exact cut_nil
  | cons i p ih =>
    rw [List.forall_mem_cons] at h
    have hline : (emit (i :: p)).toList = i.emit.toList ++ '\n' :: (emit p).toList := by
      simp [emit]
    rw [hline, h.1.cuts _ (ends_cons.mpr (by decide)), cut_blank rfl, ih h.2]
    rfl

/-! ### Numbers among the words -/

theorem Angle.mem_enclosed {w : Option Token} {e : Angle} (h : w ∈ e.pieces) (least : Nat) :
    w ∈ e.enclosed least e.pieces := by
  unfold enclosed
  split
  · simp [h]
  · exact h

theorem Angle.mem_pieces {w : Option Token} {e : Angle} {c : Float} (hc : c ∈ e.constants)
    (hw : w ∈ numberPieces c) : w ∈ e.pieces := by
  induction e using operatorInduction with
  | constant v => exact List.mem_singleton.mp hc ▸ hw
  | symbol name => cases hc
  | pi => cases hc
  | neg e ih => exact List.mem_cons_of_mem _ (mem_enclosed (ih hc) 4)
  | binary op a b iha ihb =>
    rw [constants_combine] at hc
    rw [pieces_combine]
    rcases List.mem_append.mp hc with hc | hc
    · exact List.mem_append_left _ (mem_enclosed (iha hc) _)
    · exact List.mem_append_right _ (List.mem_cons_of_mem _ (mem_enclosed (ihb hc) _))

theorem mem_commaSeparated {w : Option Token} {ws : List (Option Token)}
    {items : List (List (Option Token))} (hws : ws ∈ items) (hw : w ∈ ws) :
    w ∈ commaSeparated items := by
  induction items with
  | nil => cases hws
  | cons vs items ih =>
    cases items with
    | nil =>
      rw [commaSeparated_singleton]
      exact List.mem_singleton.mp hws ▸ hw
    | cons us items =>
      rw [commaSeparated_cons_cons]
      rcases List.mem_cons.mp hws with rfl | hws
      · exact List.mem_append_left _ hw
      · exact List.mem_append_right _ (List.mem_cons_of_mem _ (ih hws))

theorem mem_paramPieces {w : Option Token} {params : List Angle} {θ : Angle} (hθ : θ ∈ params)
    (hw : w ∈ θ.pieces) : w ∈ paramPieces params := by
  have hne : params.isEmpty = false := List.isEmpty_eq_false_iff_exists_mem.mpr ⟨θ, hθ⟩
  rw [paramPieces, hne]
  exact List.mem_cons_of_mem _ (List.mem_append_left _
    (mem_commaSeparated (List.mem_map_of_mem hθ) hw))

/-- The words of every number of a program are among its words. -/
theorem Program.mem_pieces {w : Option Token} {p : Program} {c : Float} (hc : c ∈ p.constants)
    (hw : w ∈ numberPieces c) : w ∈ p.pieces := by
  obtain ⟨θ, hθ, hc⟩ := List.mem_flatMap.mp hc
  obtain ⟨a, ha, hθ⟩ := List.mem_flatMap.mp hθ
  obtain ⟨i, hi, happly⟩ := List.mem_filterMap.mp ha
  refine List.mem_flatMap.mpr ⟨i, hi, ?_⟩
  cases i with
  | declare d => cases happly
  | apply a' =>
    cases happly
    have hparam := mem_paramPieces hθ (Angle.mem_pieces hc hw)
    simp [Instruction.pieces, Application.pieces, hparam]

/-- The number in the header of a program. -/
def versionNumeral : Numeral where
  whole := ['3']
  fraction := some ['0']
  whole_ne_nil := List.cons_ne_nil _ _
  isDigit_whole := List.forall_mem_singleton.mpr rfl
  isDigit_fraction := fun _ h ↦ Option.some.inj h ▸ List.forall_mem_singleton.mpr rfl

theorem Program.cut_emitWithHeader {p : Program} (h : ∀ i ∈ p, i.Writable) :
    cut p.emitWithHeader.toList =
      some (.mark .version) :: versionNumeral.word? :: some (.mark .semicolon) :: p.pieces := by
  have hend : Cuts [';'] [some (.mark .semicolon)] := cuts_nil.mark rfl (by decide)
  have hnumber := (versionNumeral.cuts_text.append hend (by decide)).blank (c := ' ') rfl
  have hheader := (cuts_keyword (m := .version) (by decide)).append hnumber (by decide)
  have htext : p.emitWithHeader.toList = "OPENQASM 3.0;".toList ++ '\n' :: p.emit.toList := by
    simp [emitWithHeader]
  rw [htext]
  refine (hheader _ (ends_cons.mpr (by decide))).trans ?_
  rw [cut_blank rfl, cut_emit h]
  rfl

end Instructions

end Peephole
