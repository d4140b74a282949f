import Peephole.Proofs.Writing

/-!
# Reading written programs

The words of a program that obeys the static rules are a text of the grammar, so its text is read
again (`parse_emit`). The program that is read has the guards of each application in the order in
which they are written, and in place of each number the angle `ρ` as which the text of the number is
read (`Program.reread`). A minus that is written in front of a number becomes part of it.
-/

set_option autoImplicit false
set_option relaxedAutoImplicit false

namespace Peephole

open Source Source.Lexer Source.Grammar Decimal

variable {ρ : Float → Angle}

/-- The text of a number is read as an angle, also as an operand of a product. -/
def ReadsAs (c : Float) (e : Angle) : Prop :=
  ∃ ws, numberPieces c = ws.map some ∧ Expression 3 ws e

/-! ### Angles -/

namespace Angle

/-- The angle that is read from the text of an angle, if numbers are read as `ρ` says. -/
def reread (ρ : Float → Angle) : Angle → Angle
  | constant v => ρ v
  | symbol name => symbol name
  | pi => pi
  | neg e => negated (e.reread ρ)
  | add a b => add (a.reread ρ) (b.reread ρ)
  | sub a b => sub (a.reread ρ) (b.reread ρ)
  | mul a b => mul (a.reread ρ) (b.reread ρ)
  | div a b => div (a.reread ρ) (b.reread ρ)

variable {e a b : Angle}

theorem reread_combine (op : Operator) :
    (op.combine a b).reread ρ = op.combine (a.reread ρ) (b.reread ρ) := by
  cases op <;> rfl

variable {ws : List Token}

/-- An angle in parentheses, or one that needs none. -/
theorem exists_enclosed {e' : Angle} (h : Expression (min 3 e.precedence) ws e') (least : Nat) :
    ∃ ws', e.enclosed least (ws.map some) = ws'.map some ∧ Expression (min 3 least) ws' e' := by
  unfold enclosed
  split
  · refine ⟨.mark .leftParen :: (ws ++ [.mark .rightParen]), by simp, ?_⟩
    exact (Expression.parens (h.mono (Nat.zero_le _))).mono (by omega)
  · exact ⟨ws, rfl, h.mono (by omega)⟩

/-- The words of an angle are an angle of the grammar. -/
theorem exists_expression (h : ∀ c ∈ e.constants, ReadsAs c (ρ c)) :
    ∃ ws, e.pieces = ws.map some ∧ Expression (min 3 e.precedence) ws (e.reread ρ) := by
  induction e using operatorInduction with
  | constant v => exact h v List.mem_cons_self
  | symbol name =>
    have hexpression := Expression.operand (.symbol name)
    exact ⟨[.identifier name], rfl, hexpression.mono (Nat.min_le_right 3 4)⟩
  | pi => exact ⟨[.mark .pi], rfl, (Expression.operand .pi).mono (Nat.min_le_right 3 4)⟩
  | neg e ih =>
    obtain ⟨ws, hws, hexpression⟩ := ih h
    obtain ⟨ws', hws', henclosed⟩ := exists_enclosed hexpression 4
    refine ⟨.mark .minus :: ws', ?_, henclosed.negated⟩
    rw [pieces, hws, hws', List.map_cons]
  | binary op a b iha ihb =>
    rw [constants_combine, List.forall_mem_append] at h
    obtain ⟨ls, hls, hleft⟩ := iha h.1
    obtain ⟨ls', hls', hleft'⟩ := exists_enclosed hleft op.precedence
    obtain ⟨rs, hrs, hright⟩ := ihb h.2
    obtain ⟨rs', hrs', hright'⟩ := exists_enclosed hright (op.precedence + 1)
    have hprecedence : op.precedence + 1 ≤ 3 := by cases op <;> decide
    refine ⟨ls' ++ .mark op.mark :: rs', ?_, ?_⟩
    · rw [pieces_combine, hls, hls', hrs, hrs', List.map_append, List.map_cons]
    · rw [precedence_combine, reread_combine, Nat.min_eq_right (by omega)]
      exact .binary op (hleft'.mono (by omega)) (hright'.mono (by omega))

end Angle

/-! ### Lists, references and modifiers -/

namespace Source.Grammar

section Lists

variable {α β : Type} {item : List Token → β → Prop} {f : α → β} {g : α → List (Option Token)}
  {xs : List α}

theorem exists_separated (hne : xs ≠ []) (h : ∀ x ∈ xs, ∃ ws, g x = ws.map some ∧ item ws (f x)) :
    ∃ ws, commaSeparated (xs.map g) = ws.map some ∧ Separated item ws (xs.map f) := by
  induction xs with
  | nil => exact absurd rfl hne
  | cons x xs ih =>
    rw [List.forall_mem_cons] at h
    obtain ⟨⟨ws, hws, hitem⟩, hrest⟩ := h
    cases xs with
    | nil => exact ⟨ws, by simpa using hws, .one hitem⟩
    | cons y ys =>
      obtain ⟨vs, hvs, hseparated⟩ := ih (List.cons_ne_nil _ _) hrest
      refine ⟨ws ++ .mark .comma :: vs, ?_, .more hitem hseparated⟩
      rw [List.map_cons, List.map_cons, commaSeparated_cons_cons, ← List.map_cons, hvs, hws,
        List.map_append, List.map_cons]

end Lists

variable {ws : List Token}

theorem exists_parameters {params : List Angle}
    (h : ∀ θ ∈ params, ∀ c ∈ θ.constants, ReadsAs c (ρ c)) :
    ∃ ws, paramPieces params = ws.map some ∧ Parameters ws (params.map (Angle.reread ρ)) := by
  cases params with
  | nil => exact ⟨[], rfl, .absent⟩
  | cons θ params =>
    have hitems : ∀ θ' ∈ θ :: params,
        ∃ ws, θ'.pieces = ws.map some ∧ Expression 0 ws (θ'.reread ρ) := by
      intro θ' hθ'
      obtain ⟨ws, hws, hexpression⟩ := Angle.exists_expression (h θ' hθ')
      exact ⟨ws, hws, hexpression.mono (Nat.zero_le _)⟩
    obtain ⟨ws, hws, hseparated⟩ := exists_separated (List.cons_ne_nil _ _) hitems
    refine ⟨.mark .leftParen :: (ws ++ [.mark .rightParen]), ?_, .listed hseparated⟩
    have hpieces : paramPieces (θ :: params) = some (.mark .leftParen) ::
        (commaSeparated ((θ :: params).map Angle.pieces) ++ [some (.mark .rightParen)]) := rfl
    rw [hpieces, hws, List.map_cons, List.map_append, List.map_cons, List.map_nil]

theorem exists_reference {scope : List Declaration} {q : Qubit} (h : q.Resolves scope) :
    ∃ ws, q.pieces = ws.map some ∧ Reference scope ws q := by
  obtain ⟨register, index⟩ := q
  obtain ⟨d, hd, rfl, ⟨hsize, rfl⟩ | ⟨size, i, hsize, rfl, hi⟩⟩ := h
  · exact ⟨_, rfl, .single hd hsize⟩
  · exact ⟨_, rfl, .slot hd hsize hi⟩

/-- A modifier in front of others adds as many guards as it says. -/
theorem exists_modifiers (negated : Bool) (count : Nat) {ms : List Modifier} (h : Modifiers ws ms) :
    ∃ ws' ms', modifierPieces negated count ++ ws.map some = ws'.map some ∧ Modifiers ws' ms' ∧
      (ms'.flatMap fun m ↦ List.replicate m.count m.negated) =
        List.replicate count negated ++ ms.flatMap fun m ↦ List.replicate m.count m.negated := by
  unfold modifierPieces
  split
  · next hcount => exact ⟨ws, ms, rfl, h, by simp [hcount]⟩
  · next hcount => exact ⟨_, _, rfl, .counted negated (Nat.pos_of_ne_zero hcount) h, rfl⟩

end Source.Grammar

/-! ### Programs -/

/-- Replaces the angle of a gate. -/
def StandardGate.mapAngle (f : Angle → Angle) : StandardGate → StandardGate
  | p θ => p (f θ)
  | rx θ => rx (f θ)
  | ry θ => ry (f θ)
  | rz θ => rz (f θ)
  | g => g

/-- Replaces the angles of a gate. -/
def Gate.mapAngles (f : Angle → Angle) : Gate → Gate
  | standard g => standard (g.mapAngle f)
  | custom name arity params => custom name arity (params.map f)

/-- The application that is read from the text of an application. -/
def Application.reread (ρ : Float → Angle) (a : Application) : Application :=
  ⟨a.gate.mapAngles (Angle.reread ρ), a.targets, a.orderedGuards⟩

def Instruction.reread (ρ : Float → Angle) : Instruction → Instruction
  | declare d => declare d
  | apply a => apply (a.reread ρ)

/-- The program that is read from the text of a program, if numbers are read as `ρ` says. -/
def Program.reread (ρ : Float → Angle) (p : Program) : Program :=
  p.map (Instruction.reread ρ)

theorem StandardGate.name_mem_names_mapAngle (f : Angle → Angle) (g : StandardGate) :
    g.name ∈ (g.mapAngle f).names := by
  cases g <;> exact List.mem_cons_self

theorem StandardGate.params_mapAngle (f : Angle → Angle) (g : StandardGate) :
    (g.mapAngle f).params = g.params.map f := by
  cases g <;> rfl

theorem StandardGate.targetCount_mapAngle (f : Angle → Angle) (g : StandardGate) :
    (g.mapAngle f).targetCount = g.targetCount := by
  cases g <;> rfl

theorem Gate.Takes.named {g : Gate} {targets : Nat} (h : g.Takes targets) (f : Angle → Angle) :
    Named g.name (g.params.map f) targets (g.mapAngles f) := by
  cases g with
  | standard g =>
    rw [show targets = g.arity from h, g.arity_eq_targetCount, ← g.targetCount_mapAngle f]
    rw [show (Gate.standard g).params.map f = (g.mapAngle f).params from (g.params_mapAngle f).symm]
    exact .standard (g.name_mem_names_mapAngle f)
  | custom name arity params =>
    obtain ⟨rfl, htargets, hname⟩ := h
    exact .custom hname (Nat.lt_of_le_pred (by decide) htargets)

theorem Application.map_negated_orderedGuards (a : Application) :
    a.orderedGuards.map Guard.negated =
      List.replicate (a.guards.filter (·.negated)).length true ++
        List.replicate (a.guards.filter (!·.negated)).length false := by
  rw [orderedGuards, List.map_append]
  congr 1
  · rw [List.eq_replicate_iff]
    simp
  · rw [List.eq_replicate_iff]
    simp

theorem Application.perm_orderedGuards (a : Application) : a.orderedGuards.Perm a.guards :=
  List.filter_append_perm _ _

variable {scope : List Declaration}

theorem Application.Valid.exists_call {a : Application} (h : a.Valid scope)
    (hcount : a.guards.length ≤ maxInt)
    (hconstants : ∀ θ ∈ a.gate.params, ∀ c ∈ θ.constants, ReadsAs c (ρ c)) :
    ∃ ws, a.pieces = ws.map some ∧ Call scope [] ws (a.reread ρ) := by
  have hresolves : ∀ q ∈ a.orderedGuards.map Guard.qubit ++ a.targets, q.Resolves scope := by
    refine List.forall_mem_append.mpr ⟨fun q hq ↦ ?_, h.targets⟩
    obtain ⟨c, hc, rfl⟩ := List.mem_map.mp hq
    exact h.guards c (a.perm_orderedGuards.mem_iff.mp hc)
  obtain ⟨operandWords, hoperandWords, hoperands⟩ := exists_separated (f := id)
    (g := Qubit.pieces) (List.append_ne_nil_of_right_ne_nil _ h.targets_ne_nil)
    fun q hq ↦ exists_reference (hresolves q hq)
  obtain ⟨paramWords, hparamWords, hparams⟩ := exists_parameters hconstants
  obtain ⟨plainWords, plain, hplainWords, hplain, hplainGuards⟩ := exists_modifiers false
    (a.guards.filter (!·.negated)).length Modifiers.nil
  obtain ⟨modifierWords, ms, hmodifierWords, hmodifiers, hguards⟩ := exists_modifiers true
    (a.guards.filter (·.negated)).length hplain
  rw [hplainGuards, List.flatMap_nil, List.append_nil, ← a.map_negated_orderedGuards] at hguards
  rw [← hplainWords, List.map_nil, List.append_nil] at hmodifierWords
  rw [List.map_id] at hoperands
  have hlength : a.orderedGuards.length < UInt64.size := by
    rw [a.perm_orderedGuards.length_eq]
    exact Nat.lt_of_le_pred (by decide) hcount
  refine ⟨modifierWords ++ .identifier a.gate.name ::
    (paramWords ++ (operandWords ++ [.mark .semicolon])), ?_,
    .mk hmodifiers hparams hoperands hguards.symm hlength h.targets_ne_nil (h.takes.named _)⟩
  rw [pieces, hmodifierWords, hparamWords, hoperandWords]
  simp

theorem Declaration.Valid.exists_declares {d : Declaration} (h : d.Valid scope) :
    ∃ ws, d.pieces = ws.map some ∧ Declares scope ws d := by
  obtain ⟨name, size⟩ := d
  cases size with
  | none => exact ⟨_, rfl, .single h.fresh⟩
  | some n =>
    obtain ⟨hpos, hmax⟩ := h.size n rfl
    exact ⟨_, rfl, .register h.fresh hpos (Nat.lt_of_le_pred (by decide) hmax)⟩

/-- The words of a program that obeys the static rules and can be written are statements of the
grammar. -/
theorem Program.Valid.exists_statements {p : Program} (h : p.Valid scope)
    (hwritable : ∀ i ∈ p, i.Writable)
    (hconstants : ∀ c ∈ p.constants, ReadsAs c (ρ c)) :
    ∃ ws, p.pieces = ws.map some ∧ Statements scope [] ws (p.reread ρ) := by
  induction p generalizing scope with
  | nil => exact ⟨[], rfl, .nil⟩
  | cons i p ih =>
    rw [List.forall_mem_cons] at hwritable
    cases i with
    | declare d =>
      obtain ⟨vs, hvs, hdeclares⟩ := h.1.exists_declares
      obtain ⟨ws, hws, hstatements⟩ := ih h.2 hwritable.2 hconstants
      refine ⟨vs ++ ws, ?_, .declaration hdeclares hstatements⟩
      rw [List.map_append, ← hvs, ← hws]
      rfl
    | apply a =>
      have hsplit : constants (.apply a :: p) =
          a.gate.params.flatMap Angle.constants ++ constants p := by
        simp [constants, angles, applications_apply]
      rw [hsplit, List.forall_mem_append] at hconstants
      obtain ⟨vs, hvs, hcall⟩ := h.1.exists_call hwritable.1.count fun θ hθ c hc ↦
        hconstants.1 c (List.mem_flatMap.mpr ⟨θ, hθ, hc⟩)
      obtain ⟨ws, hws, hstatements⟩ := ih h.2 hwritable.2 hconstants.2
      refine ⟨vs ++ ws, ?_, .call hcall hstatements⟩
      rw [List.map_append, ← hvs, ← hws]
      rfl

/-! ### Texts -/

theorem Qubit.Resolves.writable {q : Qubit} (h : q.Resolves scope)
    (hscope : ∀ d ∈ scope, d.Writable) :
    q.Writable := by
  obtain ⟨d, hd, hname, hindex⟩ := h
  refine ⟨hname ▸ (hscope d hd).name, fun i hi ↦ ?_⟩
  rcases hindex with ⟨-, hnone⟩ | ⟨size, index, hsize, hsome, hlt⟩
  · rw [hnone] at hi
    cases hi
  · rw [hsome] at hi
    cases hi
    exact Nat.le_trans (Nat.le_of_lt hlt) ((hscope d hd).size size hsize)

/-- What obeys the static rules and has names that can be written can be written. -/
theorem Program.Valid.writable {p : Program} (h : p.Valid scope) (hscope : ∀ d ∈ scope, d.Writable)
    (hspelled : p.Spelled) (hcount : ∀ a ∈ p.applications, a.guards.length ≤ maxInt) :
    ∀ i ∈ p, i.Writable := by
  induction p generalizing scope with
  | nil => exact nofun
  | cons i p ih =>
    rw [List.forall_mem_cons]
    cases i with
    | declare d =>
      obtain ⟨hdeclared, hgates, hsymbols⟩ := hspelled
      rw [declarations_declare, List.forall_mem_cons] at hdeclared
      have hd : d.Writable := ⟨hdeclared.1, fun n hn ↦ Nat.le_trans (h.1.size n hn).2 (by decide)⟩
      have hscope' : ∀ d' ∈ scope ++ [d], d'.Writable := by
        rw [List.forall_mem_append, List.forall_mem_singleton]
        exact ⟨hscope, hd⟩
      exact ⟨hd, ih h.2 hscope' ⟨hdeclared.2, hgates, hsymbols⟩ hcount⟩
    | apply a =>
      obtain ⟨hdeclared, hgates, hsymbols⟩ := hspelled
      rw [applications_apply, List.forall_mem_cons] at hgates hcount
      rw [angles, applications_apply, List.flatMap_cons, List.forall_mem_append] at hsymbols
      refine ⟨?_, ih h.2 hscope ⟨hdeclared, hgates.2, hsymbols.2⟩ hcount.2⟩
      exact ⟨hgates.1, hsymbols.1, fun q hq ↦ (h.1.targets q hq).writable hscope,
        fun c hc ↦ (h.1.guards c hc).writable hscope, hcount.1⟩

theorem isVersion_versionNumeral : ∃ t, versionNumeral.word? = some t ∧ IsVersion t :=
  ⟨_, rfl, rfl, .inl (by decide +kernel)⟩

section Texts

variable {p : Program}

/-- The text of a program is read again. -/
theorem parse_emit (hvalid : p.Valid []) (hwritable : ∀ i ∈ p, i.Writable)
    (hconstants : ∀ c ∈ p.constants, ReadsAs c (ρ c)) : parse p.emit = .ok (p.reread ρ) := by
  obtain ⟨ws, hws, hstatements⟩ := hvalid.exists_statements hwritable hconstants
  exact parse_eq_ok.mpr ⟨ws, (Program.cut_emit hwritable).trans hws, .mk .absent hstatements⟩

theorem parse_emitWithHeader (hvalid : p.Valid []) (hwritable : ∀ i ∈ p, i.Writable)
    (hconstants : ∀ c ∈ p.constants, ReadsAs c (ρ c)) :
    parse p.emitWithHeader = .ok (p.reread ρ) := by
  obtain ⟨ws, hws, hstatements⟩ := hvalid.exists_statements hwritable hconstants
  obtain ⟨t, ht, hversion⟩ := isVersion_versionNumeral
  refine parse_eq_ok.mpr ⟨[.mark .version, t, .mark .semicolon] ++ ws, ?_,
    .mk (.version hversion) hstatements⟩
  rw [Program.cut_emitWithHeader hwritable, ht, hws]
  rfl

end Texts

end Peephole
