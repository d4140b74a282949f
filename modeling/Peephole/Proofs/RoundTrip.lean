import Peephole.Proofs.Binary64
import Peephole.Proofs.Rereading

/-!
# The round trip through text

A program that was read from a text is written and read again. What comes back is the program with
the negated guards of each application in front of the others, if every number of the program is
written as a literal of its magnitude after an optional minus (`PrintsAsLiteral`), and writing it
again gives the same text.
-/

set_option autoImplicit false
set_option relaxedAutoImplicit false

namespace Peephole

open Source Source.Lexer Source.Grammar Decimal

/-! ### Literals -/

/-- The text of a number is an optional minus and then a single literal, whose value is the
magnitude of the number. -/
def PrintsAsLiteral (c : Float) : Prop :=
  ∃ (minus : Bool) (text : String) (t : Located),
    Layout.plain.render c = (if minus then "-" else "") ++ text ∧ tokenize text = [.ok t] ∧
      t.token.number? = some c.abs

section Literals

variable {c : Float} {t : Token} {e : Angle}

theorem PrintsAsLiteral.exists_word (h : PrintsAsLiteral c) :
    ∃ t, magnitudeWord? c = some t ∧ t.number? = some c.abs := by
  obtain ⟨minus, text, t, hrender, htokens, hnumber⟩ := h
  have htext : cut text.toList = [some t.token] := congrArg (List.map wordOf) htokens
  have hpieces :
      numberPieces c = (if minus then [some (.mark .minus)] else []) ++ [some t.token] := by
    rw [← (cuts_number c).cut_eq, hrender, String.toList_append]
    cases minus with
    | false => exact htext
    | true => exact (cut_mark rfl (by decide)).trans (congrArg _ htext)
  have hlast : (numberPieces c).getLast? = some (magnitudeWord? c) := by
    unfold numberPieces
    split <;> rfl
  rw [hpieces, List.getLast?_append, List.getLast?_singleton, Option.some_or] at hlast
  exact ⟨t.token, (Option.some.inj hlast).symm, hnumber⟩

theorem printsAsLiteral_of_word (hword : magnitudeWord? c = some t)
    (hnumber : t.number? = some c.abs) :
    PrintsAsLiteral c := by
  have hcut : (tokenizeFrom 1 (magnitudeText c)).map wordOf = [t].map some := by
    rw [map_tokenizeFrom, (cuts_magnitudeText c).cut_eq, hword, List.map_singleton]
  obtain ⟨ts, hts, hwords⟩ := exists_tokens_of_map_wordOf hcut
  obtain ⟨u, rfl, rfl⟩ := List.map_eq_singleton_iff.mp hwords
  refine ⟨isNegative c, String.ofList (magnitudeText c), u, ?_, ?_, hnumber⟩
  · apply String.toList_inj.mp
    rw [toList_render_plain, String.toList_append, String.toList_ofList]
    cases isNegative c <;> rfl
  · rw [tokenize, String.toList_ofList, hts, List.map_singleton]

/-- Whether a number is written as a literal can be computed. -/
theorem printsAsLiteral_iff :
    PrintsAsLiteral c ↔ (magnitudeWord? c).bind Token.number? = some c.abs := by
  constructor
  · intro h
    obtain ⟨t, hword, hnumber⟩ := h.exists_word
    rw [hword, Option.bind_some, hnumber]
  · intro h
    obtain ⟨t, hword, hnumber⟩ := Option.bind_eq_some_iff.mp h
    exact printsAsLiteral_of_word hword hnumber

/-- A word after an optional minus is read as the angle of the word with its sign. -/
theorem readsAs_of_operand (hword : magnitudeWord? c = some t) (ht : Operand t e) :
    ReadsAs c (if isNegative c then negated e else e) := by
  unfold ReadsAs numberPieces
  rw [hword]
  cases isNegative c with
  | false => exact ⟨[t], rfl, (Expression.operand ht).lower⟩
  | true => exact ⟨[.mark .minus, t], rfl, (Expression.operand ht).lower.negated⟩

theorem PrintsAsLiteral.readsAs (h : PrintsAsLiteral c) : ReadsAs c (.constant c) := by
  obtain ⟨t, hword, hnumber⟩ := h.exists_word
  have hnan : c.isNaN = false := by
    by_contra hnan
    rw [magnitudeWord?, if_pos (Bool.eq_true_of_not_eq_false hnan)] at hword
    cases hword
    cases hnumber
  have hreads := readsAs_of_operand hword (Operand.number hnumber)
  have hsigned : (if isNegative c then negated (.constant c.abs) else .constant c.abs) =
      Angle.constant (if isNegative c then -c.abs else c.abs) :=
    (apply_ite Angle.constant _ _ _).symm
  rwa [hsigned, Binary64.signed_abs hnan] at hreads

end Literals

/-! ### Programs that were read -/

/-- The program with the negated guards of each application in front of the others. -/
def Program.negatedFirst (p : Program) : Program :=
  p.map fun
    | .declare d => .declare d
    | .apply a => .apply ⟨a.gate, a.targets, a.orderedGuards⟩

theorem Angle.reread_constant {e : Angle} (h : e.Folded) : e.reread constant = e := by
  induction e using operatorInduction with
  | constant v => rfl
  | symbol name => rfl
  | pi => rfl
  | neg e ih => rw [reread, ih h.2, h.1]
  | binary op a b iha ihb =>
    obtain ⟨ha, hb⟩ := (folded_combine op).mp h
    rw [reread_combine, iha ha, ihb hb]

theorem Gate.mapAngles_eq_self {f : Angle → Angle} {g : Gate} (h : ∀ θ ∈ g.params, f θ = θ) :
    g.mapAngles f = g := by
  cases g with
  | standard g =>
    rw [mapAngles]
    cases g <;> simp_all [StandardGate.mapAngle, params, StandardGate.params]
  | custom name arity params =>
    have hmap : params.map f = params := (List.map_congr_left h).trans (List.map_id' params)
    rw [mapAngles, hmap]

theorem Program.reread_constant {p : Program} (h : ∀ θ ∈ p.angles, θ.Folded) :
    p.reread .constant = p.negatedFirst := by
  refine List.map_congr_left fun i hi ↦ ?_
  cases i with
  | declare d => rfl
  | apply a =>
    have ha : a ∈ p.applications := List.mem_filterMap.mpr ⟨_, hi, rfl⟩
    have hgate : a.gate.mapAngles (Angle.reread .constant) = a.gate :=
      Gate.mapAngles_eq_self fun θ hθ ↦
        Angle.reread_constant (h θ (List.mem_flatMap.mpr ⟨a, ha, hθ⟩))
    rw [Instruction.reread, Application.reread, hgate]

theorem Program.emit_negatedFirst (p : Program) : p.negatedFirst.emit = p.emit := by
  unfold emit negatedFirst
  rw [List.map_map]
  refine congrArg String.join (List.map_congr_left fun i _ ↦ ?_)
  cases i with
  | declare d => rfl
  | apply a =>
    simp [Instruction.emit, Application.emit, Application.orderedGuards, List.filter_filter]

namespace Source

variable {source : String} {p : Program}

theorem spelled_of_parse (h : parse source = .ok p) : p.Spelled := by
  obtain ⟨ws, hws, htext⟩ := parse_eq_ok.mp h
  refine htext.spelled fun name hname ↦ ?_
  have hmem : some (.identifier name) ∈ cut source.toList := hws ▸ List.mem_map_of_mem hname
  exact isName_of_mem_cut hmem

theorem folded_of_parse (h : parse source = .ok p) : ∀ θ ∈ p.angles, θ.Folded := by
  obtain ⟨ws, -, htext⟩ := parse_eq_ok.mp h
  intro θ hθ
  obtain ⟨vs, -, hexpression⟩ := htext.exists_expression hθ
  exact hexpression.folded

theorem length_guards_of_parse (h : parse source = .ok p) :
    ∀ a ∈ p.applications, a.guards.length ≤ source.length := by
  obtain ⟨ws, hws, htext⟩ := parse_eq_ok.mp h
  intro a ha
  have hcut := length_cut_le source.toList
  rw [hws, List.length_map, String.length_toList] at hcut
  exact (htext.length_guards_le ha).trans hcut

/-- What was read can be written, since the text had room for all guards. -/
theorem writable_of_parse (hlength : source.length ≤ maxInt) (h : parse source = .ok p) :
    ∀ i ∈ p, i.Writable :=
  (valid_of_parse h).writable nofun (spelled_of_parse h) fun a ha ↦
    (length_guards_of_parse h a ha).trans hlength

/-- A program that was read from a text, and whose numbers are written as literals of their
magnitudes, is read again from its own text, with or without a header. Only the order of the guards
changes: the negated ones come first. Writing the result gives the same text again. The length of
the text bounds the number of guards, which has to be an integer literal. -/
theorem parse_emit_of_literals (hlength : source.length ≤ maxInt) (h : parse source = .ok p)
    (hconstants : ∀ c ∈ p.constants, PrintsAsLiteral c) :
    parse p.emit = .ok p.negatedFirst ∧ parse p.emitWithHeader = .ok p.negatedFirst ∧
      p.negatedFirst.emit = p.emit := by
  have hvalid := valid_of_parse h
  have hwritable := writable_of_parse hlength h
  have hreads : ∀ c ∈ p.constants, ReadsAs c (.constant c) := fun c hc ↦ (hconstants c hc).readsAs
  rw [← Program.reread_constant (folded_of_parse h)]
  refine ⟨parse_emit hvalid hwritable hreads, parse_emitWithHeader hvalid hwritable hreads, ?_⟩
  rw [Program.reread_constant (folded_of_parse h)]
  exact p.emit_negatedFirst

/-- Guards of both kinds from a block and from modifiers, a sign that belongs to a number, and
nested operators. The order of the guards does change. -/
theorem parse_emit_of_literals_guarded :
    let gate := "rz(-0.5*(t - 2)/-(3 + pi))"
    let source := "qubit[2] q; qubit a; qif a do negctrl @ " ++ gate ++ " q[0], q[1]; end"
    let text := "qubit[2] q;\nqubit a;\nnegctrl(1) @ ctrl(1) @ " ++ gate ++ " q[0], a, q[1];\n"
    ∃ p, source.length ≤ maxInt ∧ parse source = .ok p ∧ p.constants = [-0.5, 2, 3] ∧
      (∀ c ∈ p.constants, PrintsAsLiteral c) ∧ p.emit = text ∧ parse text = .ok p.negatedFirst ∧
      parse p.emitWithHeader = .ok p.negatedFirst ∧ p.negatedFirst.emit = text := by
  intro gate source text
  have hread : (parse source).toOption.map (fun p ↦ (p.constants, p.emit)) =
      some ([-0.5, 2, 3], text) := by decide +kernel
  obtain ⟨p, hp, hpair⟩ := Run.toOption_map_eq_some.mp hread
  obtain ⟨hconstants, hemit⟩ := Prod.mk.inj hpair
  have hliterals : ∀ c ∈ p.constants, PrintsAsLiteral c := by
    have hlist : ∀ c ∈ ([-0.5, 2, 3] : List Float),
        (magnitudeWord? c).bind Token.number? = some c.abs := by decide +kernel
    rw [hconstants]
    exact fun c hc ↦ printsAsLiteral_iff.mpr (hlist c hc)
  have hlength : source.length ≤ maxInt := by decide +kernel
  obtain ⟨hparse, hheader, hsame⟩ := parse_emit_of_literals hlength hp hliterals
  exact ⟨p, hlength, hp, hconstants, hliterals, hemit, hemit ▸ hparse, hheader, hsame.trans hemit⟩

end Source

end Peephole
