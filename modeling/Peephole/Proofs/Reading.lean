import Peephole.Proofs.Grammar
import Peephole.Proofs.Running

/-!
# Reading by the grammar

`Reads` says what a parser makes of some tokens, and `Begins` that tokens begin with given words.
Each parser has one lemma that says which parsers its success consists of. From these it follows,
for angles, parameters and references, that what is read is in the grammar, and that what is in the
grammar is read if the tokens after it do not continue it.
-/

set_option autoImplicit false
set_option relaxedAutoImplicit false

namespace Peephole.Source

/-- A parser has read a value and left some tokens. -/
def Reads {α : Type} {p : α × Tokens → Prop} (result : Except SourceFault { r // p r }) (a : α)
    (rest : Tokens) : Prop :=
  ∃ h, result = .ok ⟨(a, rest), h⟩

/-- Tokens begin with some words, after which others are left. -/
def Begins (ts : Tokens) (words : List Token) (rest : Tokens) : Prop :=
  ∃ used, ts = used ++ rest ∧ used.map Located.token = words

/-- Tokens begin with a mark. -/
def StartsWith (ts : Tokens) (m : Mark) : Prop :=
  ∃ rest, Begins ts [.mark m] rest

/-! ### Successes of parsers -/

section Reads

variable {α β : Type} {p : α × Tokens → Prop} {q : β × Tokens → Prop} {a b : α} {c : β}
  {rest rest' : Tokens}

theorem reads_ok {h : p (a, rest)} :
    Reads (.ok ⟨(a, rest), h⟩ : Except SourceFault { r // p r }) b rest' ↔
      a = b ∧ rest = rest' := by
  constructor
  · rintro ⟨_, heq⟩
    cases heq
    exact ⟨rfl, rfl⟩
  · rintro ⟨rfl, rfl⟩
    exact ⟨h, rfl⟩

theorem Reads.unique {x : Except SourceFault { r // p r }} (ha : Reads x a rest)
    (hb : Reads x b rest') : a = b ∧ rest = rest' := by
  obtain ⟨_, rfl⟩ := ha
  exact reads_ok.mp hb

theorem reads_error {fault : SourceFault} :
    Reads (.error fault : Except SourceFault { r // p r }) a rest ↔ False :=
  ⟨fun ⟨_, h⟩ ↦ (nomatch h), False.elim⟩

theorem reads_throw {fault : SourceFault} :
    Reads (throw fault : Except SourceFault { r // p r }) a rest ↔ False :=
  reads_error

/-- Two parsers in a row have succeeded. -/
theorem exists_of_reads_bind {x : Except SourceFault { r // p r }}
    {f : { r // p r } → Except SourceFault { r // q r }} (h : Reads (x >>= f) c rest') :
    ∃ a rest hp, Reads x a rest ∧ Reads (f ⟨(a, rest), hp⟩) c rest' := by
  obtain ⟨hc, hbind⟩ := h
  obtain ⟨⟨⟨a, rest⟩, hp⟩, hx, hf⟩ := Run.bind_eq_ok.mp hbind
  exact ⟨a, rest, hp, ⟨hp, hx⟩, hc, hf⟩

theorem reads_bind_of {x : Except SourceFault { r // p r }}
    {f : { r // p r } → Except SourceFault { r // q r }} (hx : Reads x a rest)
    (hf : ∀ hp, Reads (f ⟨(a, rest), hp⟩) c rest') : Reads (x >>= f) c rest' := by
  obtain ⟨hp, hx⟩ := hx
  obtain ⟨hc, hf⟩ := hf hp
  exact ⟨hc, Run.bind_eq_ok.mpr ⟨_, hx, hf⟩⟩

/-- Two parsers in a row. -/
theorem reads_bind {x : Except SourceFault { r // p r }}
    {f : { r // p r } → Except SourceFault { r // q r }} {next : α → Tokens → Prop}
    (h : ∀ a rest hp, Reads (f ⟨(a, rest), hp⟩) c rest' ↔ next a rest) :
    Reads (x >>= f) c rest' ↔ ∃ a rest, Reads x a rest ∧ next a rest := by
  constructor
  · intro hreads
    obtain ⟨a, rest, hp, hx, hf⟩ := exists_of_reads_bind hreads
    exact ⟨a, rest, hx, (h a rest hp).mp hf⟩
  · rintro ⟨a, rest, hx, hnext⟩
    exact reads_bind_of hx fun hp ↦ (h a rest hp).mpr hnext

/-- A parser whose value is changed in the end. -/
theorem reads_map {x : Except SourceFault { r // p r }} {k : α → β}
    (hk : ∀ a rest, p (a, rest) → q (k a, rest)) :
    Reads (x >>= fun r ↦ (pure ⟨(k r.val.1, r.val.2), hk _ _ r.property⟩ :
      Except SourceFault { r // q r })) c rest' ↔ ∃ a, Reads x a rest' ∧ k a = c := by
  have hlast : ∀ a rest hp, Reads (pure ⟨(k a, rest), hk a rest hp⟩ :
      Except SourceFault { r // q r }) c rest' ↔ k a = c ∧ rest = rest' :=
    fun a rest hp ↦ reads_ok
  rw [reads_bind hlast]
  simp

end Reads

/-! ### Beginnings -/

section Begins

variable {ts rest : Tokens} {w : Token} {ws vs : List Token}

theorem begins_nil : Begins ts [] rest ↔ ts = rest := by
  simp [Begins]

theorem begins_singleton : Begins ts [w] rest ↔ ∃ line, ts = ⟨line, w⟩ :: rest := by
  constructor
  · rintro ⟨used, rfl, hused⟩
    obtain ⟨t, rfl, rfl⟩ := List.map_eq_singleton_iff.mp hused
    exact ⟨t.line, rfl⟩
  · rintro ⟨line, rfl⟩
    exact ⟨[⟨line, w⟩], rfl, rfl⟩

theorem begins_append :
    Begins ts (ws ++ vs) rest ↔ ∃ middle, Begins ts ws middle ∧ Begins middle vs rest := by
  constructor
  · rintro ⟨used, rfl, hused⟩
    obtain ⟨first, second, rfl, hfirst, hsecond⟩ := List.map_eq_append_iff.mp hused
    exact ⟨second ++ rest, ⟨first, List.append_assoc _ _ _, hfirst⟩, second, rfl, hsecond⟩
  · rintro ⟨middle, ⟨first, rfl, rfl⟩, second, rfl, rfl⟩
    exact ⟨first ++ second, (List.append_assoc _ _ _).symm, List.map_append⟩

theorem begins_cons :
    Begins ts (w :: ws) rest ↔ ∃ middle, Begins ts [w] middle ∧ Begins middle ws rest := by
  rw [← List.singleton_append, begins_append]

theorem begins_pair {w' : Token} :
    Begins ts [w, w'] rest ↔ ∃ middle, Begins ts [w] middle ∧ Begins middle [w'] rest :=
  begins_cons

theorem Begins.append (h : Begins ts ws rest) (more : Tokens) :
    Begins (ts ++ more) ws (rest ++ more) := by
  obtain ⟨used, rfl, hused⟩ := h
  exact ⟨used, List.append_assoc _ _ _, hused⟩

theorem Begins.length_lt (h : Begins ts [w] rest) : rest.length < ts.length := by
  obtain ⟨line, rfl⟩ := begins_singleton.mp h
  exact Nat.lt_succ_self _

/-- The first token and what is left after it are determined. -/
theorem Begins.unique {v : Token} {rest' : Tokens} (h : Begins ts [w] rest)
    (h' : Begins ts [v] rest') : w = v ∧ rest = rest' := by
  obtain ⟨line, rfl⟩ := begins_singleton.mp h
  obtain ⟨line', heq⟩ := begins_singleton.mp h'
  cases heq
  exact ⟨rfl, rfl⟩

end Begins

/-! ### Marks and single tokens -/

section Single

variable {ts rest : Tokens} {m : Mark} {t : Located} {s : String}

theorem isMark_iff {w : Token} : w.isMark m = true ↔ w = .mark m := by
  cases w <;> simp [Token.isMark]

theorem begins_of_isMark (h : t.token.isMark m = true) : Begins (t :: ts) [.mark m] ts :=
  begins_singleton.mpr ⟨t.line, by rw [← isMark_iff.mp h]⟩

theorem startsWith_cons : StartsWith (t :: ts) m ↔ t.token.isMark m = true := by
  constructor
  · rintro ⟨rest, h⟩
    obtain ⟨line, heq⟩ := begins_singleton.mp h
    cases heq
    exact isMark_iff.mpr rfl
  · intro h
    exact ⟨ts, begins_of_isMark h⟩

theorem not_startsWith {w : Token} (h : Begins ts [w] rest) (hw : w ≠ .mark m) :
    ¬ StartsWith ts m :=
  fun ⟨_, h'⟩ ↦ hw (h.unique h').1

theorem reads_expectMark {u : Unit} :
    Reads (expectMark m ts) u rest ↔ Begins ts [.mark m] rest := by
  rw [begins_singleton]
  cases ts with
  | nil => simp [expectMark, reads_error]
  | cons t ts =>
    obtain ⟨line, token⟩ := t
    rw [expectMark]
    split
    · next hm =>
      have htoken : token = .mark m := isMark_iff.mp hm
      simp [reads_ok, htoken]
    · next hm =>
      have htoken : token ≠ .mark m := fun h ↦ hm (isMark_iff.mpr h)
      simp [reads_error, htoken]

theorem reads_expectString :
    Reads (expectString ts) s rest ↔ Begins ts [.string s] rest := by
  rw [begins_singleton]
  unfold expectString
  split
  · simp [reads_ok]
  · next hne =>
    simp only [reads_error, false_iff, not_exists]
    rintro line rfl
    exact hne _ _ _ rfl

theorem reads_expectIdentifier :
    Reads (expectIdentifier ts) s rest ↔ Begins ts [.identifier s] rest := by
  rw [begins_singleton]
  unfold expectIdentifier
  split
  · simp [reads_ok]
  · next hne =>
    simp only [reads_error, false_iff, not_exists]
    rintro line rfl
    exact hne _ _ _ rfl

theorem reads_expectInteger {n line : Nat} :
    Reads (expectInteger ts) (n, line) rest ↔ ts = ⟨line, .int n⟩ :: rest := by
  unfold expectInteger
  split
  · simp [reads_ok, and_comm, and_assoc]
  · next hne =>
    rw [reads_error, false_iff]
    rintro rfl
    exact hne _ _ _ rfl

end Single

/-! ### Angles -/

/-- The mark of an operator. -/
def Operator.mark : Operator → Mark
  | add => .plus
  | sub => .minus
  | mul => .star
  | div => .slash

/-- The tokens go on with an operator that binds at least as tightly as `least`. -/
def Binds (least : Nat) (ts : Tokens) : Prop :=
  ∃ (op : Operator) (rest : Tokens), Begins ts [.mark op.mark] rest ∧ least ≤ op.precedence

namespace Operator

variable {op : Operator} {t : Token}

theorem ofToken?_eq_some : ofToken? t = some op ↔ t = .mark op.mark := by
  constructor
  · intro h
    unfold ofToken? at h
    split at h <;> cases h <;> rfl
  · rintro rfl
    cases op <;> rfl

theorem mark_injective {op' : Operator} (h : op.mark = op'.mark) : op = op' := by
  have hop : ofToken? (.mark op.mark) = some op := ofToken?_eq_some.mpr rfl
  rw [h, ofToken?_eq_some.mpr rfl] at hop
  exact (Option.some.inj hop).symm

theorem precedence_le_two (op : Operator) : op.precedence ≤ 2 := by
  cases op <;> decide

end Operator

namespace Grammar

/-- A word stands for at most one angle. -/
theorem Operand.unique {t : Token} {a b : Angle} (ha : Operand t a) (hb : Operand t b) : a = b := by
  cases ha with
  | number hx =>
    cases hb with
    | number hy => rw [Option.some.inj (hx.symm.trans hy)]
    | pi => cases hx
    | symbol name => cases hx
  | pi =>
    cases hb with
    | number hy => cases hy
    | pi => rfl
  | symbol name =>
    cases hb with
    | number hy => cases hy
    | symbol name => rfl

theorem Expression.mono {level level' : Nat} {ws : List Token} {e : Angle}
    (h : Expression level' ws e) (hle : level ≤ level') : Expression level ws e := by
  induction hle with
  | refl => exact h
  | step _ ih => exact ih h.lower

/-- A minus in front of an operand is what the parser makes of it. -/
theorem Expression.negated {ws : List Token} {e : Angle} (operand : Expression 3 ws e) :
    Expression 3 (.mark .minus :: ws) (negated e) := by
  cases e with
  | constant x => exact .minusNumber operand
  | _ => exact .minus operand fun _ ↦ Angle.noConfusion

/-- An operator has its level, and makes the angle that the parser makes. -/
theorem Expression.binary (op : Operator) {ls rs : List Token} {a b : Angle}
    (left : Expression op.precedence ls a) (right : Expression (op.precedence + 1) rs b) :
    Expression op.precedence (ls ++ .mark op.mark :: rs) (op.combine a b) := by
  cases op with
  | add => exact .add left right
  | sub => exact .sub left right
  | mul => exact .mul left right
  | div => exact .div left right

/-- Induction with one case for all operators and one for both uses of the minus. -/
theorem Expression.byOperator {motive : ∀ level ws e, Expression level ws e → Prop}
    (operand : ∀ {t : Token} {e : Angle} (h : Operand t e), motive 4 [t] e (.operand h))
    (parens : ∀ {ws : List Token} {e : Angle} (inner : Expression 0 ws e), motive 0 ws e inner →
      motive 4 (.mark .leftParen :: (ws ++ [.mark .rightParen])) e inner.parens)
    (minus : ∀ {ws : List Token} {e : Angle} (operand : Expression 3 ws e), motive 3 ws e operand →
      motive 3 (.mark .minus :: ws) (Source.negated e) operand.negated)
    (binary : ∀ (op : Operator) {ls rs : List Token} {a b : Angle}
      (left : Expression op.precedence ls a) (right : Expression (op.precedence + 1) rs b),
      motive op.precedence ls a left → motive (op.precedence + 1) rs b right →
        motive op.precedence (ls ++ .mark op.mark :: rs) (op.combine a b) (.binary op left right))
    (lower : ∀ {level : Nat} {ws : List Token} {e : Angle} (h : Expression (level + 1) ws e),
      motive (level + 1) ws e h → motive level ws e h.lower)
    {level : Nat} {ws : List Token} {e : Angle} (h : Expression level ws e) :
    motive level ws e h := by
  induction h with
  | operand h => exact operand h
  | parens inner ih => exact parens inner ih
  | minusNumber h ih => exact minus h ih
  | @minus ws e h hnumber ih =>
    have hneg : Source.negated e = .neg e := by
      cases e with
      | constant x => exact absurd rfl (hnumber x)
      | _ => rfl
    have hminus := minus h ih
    simpa only [hneg] using hminus
  | add left right ihleft ihright => exact binary .add left right ihleft ihright
  | sub left right ihleft ihright => exact binary .sub left right ihleft ihright
  | mul left right ihleft ihright => exact binary .mul left right ihleft ihright
  | div left right ihleft ihright => exact binary .div left right ihleft ihright
  | lower h ih => exact lower h ih

end Grammar

section Angles

variable {ts rest : Tokens} {least : Nat} {left e : Angle}

theorem Binds.mono {least' : Nat} (h : Binds least ts) (hle : least' ≤ least) :
    Binds least' ts := by
  obtain ⟨op, rest, hbegins, hop⟩ := h
  exact ⟨op, rest, hbegins, Nat.le_trans hle hop⟩

theorem reads_binary : Reads (binary least ts) e rest ↔
    ∃ left rest₁, Reads (unary ts) left rest₁ ∧ Reads (climb least left rest₁) e rest := by
  rw [binary]
  exact reads_bind fun left rest₁ _ ↦
    (reads_map (k := id) fun _ _ h' ↦ Nat.lt_of_le_of_lt h' ‹_›).trans (by simp)

/-- Where no operator binds tightly enough the angle ends. -/
theorem reads_climb_of_not_binds (h : ¬ Binds least ts) :
    Reads (climb least left ts) e rest ↔ left = e ∧ ts = rest := by
  cases ts with
  | nil => rw [climb, reads_ok]
  | cons t ts =>
    rw [climb]
    split
    · rw [reads_ok]
    · next op hop =>
      have hbegins : Begins (t :: ts) [.mark op.mark] ts :=
        begins_of_isMark (isMark_iff.mpr (Operator.ofToken?_eq_some.mp hop))
      have hlt : op.precedence < least :=
        Nat.lt_of_not_le fun hle ↦ h ⟨op, ts, hbegins, hle⟩
      rw [if_pos hlt, reads_ok]

/-- An operator that binds tightly enough is read with its right operand. -/
theorem reads_climb_of_begins {op : Operator} {ts₁ : Tokens} (h : Begins ts [.mark op.mark] ts₁)
    (hle : least ≤ op.precedence) : Reads (climb least left ts) e rest ↔
      ∃ right rest₁, Reads (binary (op.precedence + 1) ts₁) right rest₁ ∧
        Reads (climb least (op.combine left right) rest₁) e rest := by
  obtain ⟨line, rfl⟩ := begins_singleton.mp h
  rw [climb, Operator.ofToken?_eq_some.mpr rfl]
  simp only [if_neg (Nat.not_lt.mpr hle)]
  exact reads_bind fun right rest₁ h₁ ↦ (reads_map (k := id) fun _ _ h₂ ↦
    Nat.le_succ_of_le (Nat.le_of_lt (Nat.lt_of_le_of_lt h₂ h₁))).trans (by simp)

theorem reads_unary_of_begins {ts₁ : Tokens} (h : Begins ts [.mark .minus] ts₁) :
    Reads (unary ts) e rest ↔ ∃ e', Reads (unary ts₁) e' rest ∧ negated e' = e := by
  obtain ⟨line, rfl⟩ := begins_singleton.mp h
  rw [unary, if_pos (isMark_iff.mpr rfl)]
  exact reads_map fun _ _ h ↦ Nat.lt_succ_of_lt h

theorem reads_unary_of_not_startsWith (h : ¬ StartsWith ts .minus) :
    Reads (unary ts) e rest ↔ Reads (primary ts) e rest := by
  cases ts with
  | nil => rw [unary]
  | cons t ts =>
    rw [unary, if_neg fun hm ↦ h (startsWith_cons.mpr hm)]

theorem reads_primary_of_begins {ts₁ : Tokens} (h : Begins ts [.mark .leftParen] ts₁) :
    Reads (primary ts) e rest ↔
      ∃ rest₁, Reads (binary 0 ts₁) e rest₁ ∧ Begins rest₁ [.mark .rightParen] rest := by
  obtain ⟨line, rfl⟩ := begins_singleton.mp h
  rw [primary]
  refine (reads_bind fun e' rest₁ h₁ ↦ reads_map (k := fun _ ↦ e') fun _ _ h₂ ↦
    Nat.lt_succ_of_lt (Nat.lt_trans h₂ h₁)).trans ?_
  constructor
  · rintro ⟨e', rest₁, hinner, _, hclose, rfl⟩
    exact ⟨rest₁, hinner, reads_expectMark.mp hclose⟩
  · rintro ⟨rest₁, hinner, hclose⟩
    exact ⟨e, rest₁, hinner, (), reads_expectMark.mpr hclose, rfl⟩

theorem reads_primary_of_not_startsWith (h : ¬ StartsWith ts .leftParen) :
    Reads (primary ts) e rest ↔ ∃ w, Begins ts [w] rest ∧ Grammar.Operand w e := by
  cases ts with
  | nil => simp [primary, reads_error, begins_singleton]
  | cons t ts =>
    obtain ⟨line, token⟩ := t
    have hparen : token ≠ .mark .leftParen := by
      rintro rfl
      exact h (startsWith_cons.mpr (isMark_iff.mpr rfl))
    have hfirst : (∃ w, Begins (⟨line, token⟩ :: ts) [w] rest ∧ Grammar.Operand w e) ↔
        ts = rest ∧ Grammar.Operand token e := by
      simp only [begins_singleton]
      grind
    have hoperand {a : Angle} (ha : Grammar.Operand token a) : ts = rest ∧ Grammar.Operand token e ↔
        a = e ∧ ts = rest := by
      rw [and_comm]
      exact and_congr_left fun _ ↦ ⟨ha.unique, fun h ↦ h ▸ ha⟩
    rw [hfirst, primary]
    split
    · next n htoken =>
      obtain rfl : token = .int n := htoken
      rw [reads_ok, hoperand (.number rfl)]
    · next x htoken =>
      obtain rfl : token = .float x := htoken
      rw [reads_ok, hoperand (.number rfl)]
    · next htoken =>
      obtain rfl : token = .mark .pi := htoken
      rw [reads_ok, hoperand .pi]
    · next name htoken =>
      obtain rfl : token = .identifier name := htoken
      rw [reads_ok, hoperand (.symbol name)]
    · next htoken => exact absurd htoken hparen
    · next hint hfloat hpi hsymbol _ =>
      rw [reads_error, false_iff]
      rintro ⟨-, hop⟩
      cases hop with
      | @number _ x hx =>
        cases token with
        | int n => exact hint n rfl
        | float x => exact hfloat x rfl
        | mark m => cases hx
        | string s => cases hx
        | identifier name => cases hx
      | pi => exact hpi rfl
      | symbol name => exact hsymbol name rfl

/-- What follows is no operator. -/
theorem not_binds {w : Token} (h : Begins ts [w] rest) (hw : Operator.ofToken? w = none) :
    ¬ Binds least ts := by
  rintro ⟨op, rest', hop, -⟩
  rw [(h.unique hop).1, Operator.ofToken?_eq_some.mpr rfl] at hw
  cases hw

theorem not_binds_nil : ¬ Binds least [] := by
  rintro ⟨op, rest, hop, -⟩
  exact absurd hop.length_lt (Nat.not_lt_zero _)

/-- No operator binds as tightly as a minus sign. -/
theorem not_binds_of_three_le (h : 3 ≤ least) : ¬ Binds least ts := by
  rintro ⟨op, -, -, hop⟩
  exact absurd op.precedence_le_two (by omega)

/-- The angles that can be read from some tokens are in the grammar, and they are read to their end.
-/
def AnglesInGrammar (ts : Tokens) : Prop :=
  ∀ least ≤ 3, ∀ e rest, Reads (binary least ts) e rest →
    (∃ ws, Begins ts ws rest ∧ Grammar.Expression least ws e) ∧ ¬ Binds least rest

theorem expression_of_primary (ih : ∀ ts' : Tokens, ts'.length < ts.length → AnglesInGrammar ts')
    (h : Reads (primary ts) e rest) : ∃ ws, Begins ts ws rest ∧ Grammar.Expression 4 ws e := by
  by_cases hparen : StartsWith ts .leftParen
  · obtain ⟨ts₁, hopen⟩ := hparen
    obtain ⟨rest₁, hinner, hclose⟩ := (reads_primary_of_begins hopen).mp h
    obtain ⟨⟨ws, hws, hexpr⟩, -⟩ := ih ts₁ hopen.length_lt 0 (by decide) e rest₁ hinner
    refine ⟨_, ?_, hexpr.parens⟩
    exact begins_cons.mpr ⟨ts₁, hopen, begins_append.mpr ⟨rest₁, hws, hclose⟩⟩
  · obtain ⟨w, hw, hoperand⟩ := (reads_primary_of_not_startsWith hparen).mp h
    exact ⟨[w], hw, .operand hoperand⟩

theorem expression_of_unary (ih : ∀ ts' : Tokens, ts'.length < ts.length → AnglesInGrammar ts')
    (h : Reads (unary ts) e rest) : ∃ ws, Begins ts ws rest ∧ Grammar.Expression 3 ws e := by
  induction ts generalizing e with
  | nil =>
    obtain ⟨ws, hws, hexpr⟩ := expression_of_primary ih (by rwa [unary] at h)
    exact ⟨ws, hws, hexpr.lower⟩
  | cons t ts ihts =>
    by_cases hminus : t.token.isMark .minus = true
    · have hbegins : Begins (t :: ts) [.mark .minus] ts := begins_of_isMark hminus
      obtain ⟨e', hoperand, rfl⟩ := (reads_unary_of_begins hbegins).mp h
      obtain ⟨ws, hws, hexpr⟩ := ihts (fun ts' hts' ↦ ih ts' (Nat.lt_succ_of_lt hts')) hoperand
      exact ⟨_, begins_cons.mpr ⟨ts, hbegins, hws⟩, hexpr.negated⟩
    · rw [unary, if_neg hminus] at h
      obtain ⟨ws, hws, hexpr⟩ := expression_of_primary ih h
      exact ⟨ws, hws, hexpr.lower⟩

/-- The operand to the left of an operator must not be looser than the operator. So the operators
that have been passed are told apart by how tightly they bind (`level`). -/
theorem expression_of_climb {level : Nat} {ls : List Token}
    (ih : ∀ ts' : Tokens, ts'.length < ts.length → AnglesInGrammar ts') (hle : least ≤ level)
    (hleft : Grammar.Expression level ls left) (hlevel : ¬ Binds (level + 1) ts)
    (h : Reads (climb least left ts) e rest) :
    (∃ ws, Begins ts ws rest ∧ Grammar.Expression least (ls ++ ws) e) ∧ ¬ Binds least rest := by
  induction hn : ts.length using Nat.strongRecOn generalizing ts left level ls with
  | ind n ihn =>
    by_cases hbinds : Binds least ts
    · obtain ⟨op, ts₁, hop, hleast⟩ := hbinds
      have hop_le : op.precedence ≤ level :=
        Nat.le_of_lt_succ (Nat.lt_of_not_le fun hle' ↦ hlevel ⟨op, ts₁, hop, hle'⟩)
      obtain ⟨right, rest₁, hright, hrest⟩ := (reads_climb_of_begins hop hleast).mp h
      obtain ⟨⟨rs, hrs, hexpr⟩, hend₁⟩ := ih ts₁ hop.length_lt (op.precedence + 1)
        (Nat.succ_le_succ op.precedence_le_two) right rest₁ hright
      have hlength : rest₁.length < ts.length := Nat.lt_trans hright.choose hop.length_lt
      obtain ⟨⟨ws, hws, hwhole⟩, hend⟩ := ihn rest₁.length (hn ▸ hlength)
        (fun ts' hts' ↦ ih ts' (Nat.lt_trans hts' hlength)) hleast
        (.binary op (hleft.mono hop_le) hexpr) hend₁ hrest rfl
      refine ⟨⟨.mark op.mark :: (rs ++ ws), ?_, ?_⟩, hend⟩
      · exact begins_cons.mpr ⟨ts₁, hop, begins_append.mpr ⟨rest₁, hrs, hws⟩⟩
      · rw [← List.cons_append, ← List.append_assoc]
        exact hwhole
    · obtain ⟨rfl, rfl⟩ := (reads_climb_of_not_binds hbinds).mp h
      refine ⟨⟨[], begins_nil.mpr rfl, ?_⟩, hbinds⟩
      rw [List.append_nil]
      exact hleft.mono hle

theorem anglesInGrammar (ts : Tokens) : AnglesInGrammar ts := by
  induction hn : ts.length using Nat.strongRecOn generalizing ts with
  | ind n ihn =>
    have ih : ∀ ts' : Tokens, ts'.length < ts.length → AnglesInGrammar ts' :=
      fun ts' hts' ↦ ihn ts'.length (hn ▸ hts') ts' rfl
    intro least hleast e rest h
    obtain ⟨left, rest₁, hleft, hrest⟩ := reads_binary.mp h
    obtain ⟨ls, hls, hexpr⟩ := expression_of_unary ih hleft
    obtain ⟨⟨ws, hws, hwhole⟩, hend⟩ := expression_of_climb
      (fun ts' hts' ↦ ih ts' (Nat.lt_trans hts' hleft.choose)) hleast hexpr
      (not_binds_of_three_le (by decide)) hrest
    exact ⟨⟨ls ++ ws, begins_append.mpr ⟨rest₁, hls, hws⟩, hwhole⟩, hend⟩

/-- Where the grammar has an angle, reading goes on after it as if it had just been read. -/
theorem reads_of_expression {level : Nat} {ws : List Token} (h : Grammar.Expression level ws e)
    (hws : Begins ts ws rest) : (3 ≤ level → Reads (unary ts) e rest) ∧
      ∀ least ≤ level, ¬ Binds (level + 1) rest → ∀ whole final,
        Reads (climb least e rest) whole final → Reads (binary least ts) whole final := by
  have hbinary {level : Nat} {ts rest : Tokens} {e : Angle} (hunary : Reads (unary ts) e rest) :
      (3 ≤ level → Reads (unary ts) e rest) ∧
        ∀ least ≤ level, ¬ Binds (level + 1) rest → ∀ whole final,
          Reads (climb least e rest) whole final → Reads (binary least ts) whole final :=
    ⟨fun _ ↦ hunary, fun _ _ _ _ _ hclimb ↦ reads_binary.mpr ⟨e, rest, hunary, hclimb⟩⟩
  induction h using Grammar.Expression.byOperator generalizing ts rest with
  | @operand w e hoperand =>
    have hmark : ∀ m ∈ [Mark.minus, Mark.leftParen], ¬ StartsWith ts m := by
      intro m hm
      refine not_startsWith hws ?_
      rintro rfl
      cases hoperand with
      | number hx => cases hx
      | pi => revert hm; decide
    exact hbinary ((reads_unary_of_not_startsWith (hmark _ (by decide))).mpr
      ((reads_primary_of_not_startsWith (hmark _ (by decide))).mpr ⟨w, hws, hoperand⟩))
  | @parens ws e inner ih =>
    obtain ⟨ts₁, hopen, hrest⟩ := begins_cons.mp hws
    obtain ⟨rest₁, hws, hclose⟩ := begins_append.mp hrest
    have hinner : Reads (Source.binary 0 ts₁) e rest₁ :=
      (ih hws).2 0 (Nat.le_refl 0) (not_binds hclose rfl) e rest₁
        ((reads_climb_of_not_binds (not_binds hclose rfl)).mpr ⟨rfl, rfl⟩)
    exact hbinary ((reads_unary_of_not_startsWith (not_startsWith hopen nofun)).mpr
      ((reads_primary_of_begins hopen).mpr ⟨rest₁, hinner, hclose⟩))
  | @minus ws e operand ih =>
    obtain ⟨ts₁, hminus, hws⟩ := begins_cons.mp hws
    exact hbinary ((reads_unary_of_begins hminus).mpr ⟨e, (ih hws).1 (by decide), rfl⟩)
  | @binary op ls rs a b left right ihleft ihright =>
    obtain ⟨ts₁, hls, hrest⟩ := begins_append.mp hws
    obtain ⟨ts₂, hop, hrs⟩ := begins_cons.mp hrest
    refine ⟨fun h ↦ absurd op.precedence_le_two (by omega), ?_⟩
    intro least hleast hend whole final hclimb
    have hright : Reads (Source.binary (op.precedence + 1) ts₂) b rest :=
      (ihright hrs).2 _ (Nat.le_refl _) (fun hbinds ↦ hend (hbinds.mono (Nat.le_succ _))) b rest
        ((reads_climb_of_not_binds hend).mpr ⟨rfl, rfl⟩)
    refine (ihleft hls).2 least hleast ?_ whole final
      ((reads_climb_of_begins hop hleast).mpr ⟨b, rest, hright, hclimb⟩)
    rintro ⟨op', rest', hop', hle⟩
    obtain rfl := Operator.mark_injective (Token.mark.inj (hop.unique hop').1)
    exact Nat.not_succ_le_self _ hle
  | @lower level ws e _ ih =>
    obtain ⟨hunary, hclimb⟩ := ih hws
    refine ⟨fun hle ↦ hunary (Nat.le_succ_of_le hle), fun least hle hend ↦ ?_⟩
    exact hclimb least (Nat.le_succ_of_le hle) fun hbinds ↦ hend (hbinds.mono (Nat.le_succ _))

/-- An angle of the grammar is read if no operator follows it. -/
theorem reads_expression_of {ws : List Token} (h : Grammar.Expression 0 ws e)
    (hws : Begins ts ws rest) (hend : ¬ Binds 0 rest) : Reads (expression ts) e rest :=
  (reads_of_expression h hws).2 0 (Nat.le_refl 0) (fun hbinds ↦ hend (hbinds.mono (Nat.zero_le 1)))
    e rest ((reads_climb_of_not_binds hend).mpr ⟨rfl, rfl⟩)

theorem expression_of_reads (h : Reads (expression ts) e rest) :
    ∃ ws, Begins ts ws rest ∧ Grammar.Expression 0 ws e :=
  (anglesInGrammar ts 0 (by decide) e rest h).1

theorem not_startsWith_of_expression (h : Reads (expression ts) e rest) :
    ¬ StartsWith ts .rightParen := by
  rintro ⟨ts₁, hclose⟩
  obtain ⟨left, rest₁, hleft, -⟩ := reads_binary.mp h
  rw [reads_unary_of_not_startsWith (not_startsWith hclose nofun),
    reads_primary_of_not_startsWith (not_startsWith hclose nofun)] at hleft
  obtain ⟨w, hw, hoperand⟩ := hleft
  obtain ⟨rfl, -⟩ := hw.unique hclose
  cases hoperand with
  | number hx => cases hx

end Angles

end Peephole.Source
