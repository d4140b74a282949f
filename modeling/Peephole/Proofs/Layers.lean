import Peephole.Proofs.Reading

/-!
# Angles in layers

`Layered.sum` reads an angle by the layers of its grammar: a sum is made of products, a product of
signed operands, and an operand is a number, π, a symbol or a sum in parentheses. The parts of a sum
or a product are collected in a loop and then joined from left to right. Each layer builds its
angles from their constructors.

Precedence climbing does the same with a single loop, which is told how tightly an operator has to
bind. The two agree on all tokens, in what is read, in what is left and in the fault
(`binary_zero_eq_sum`). The loop for all operators is the loop for products followed by the loop for
sums (`view_climb_split`, `view_climb_layer`): the right operand of a sum is read to the end of its
product, so no factor is left for the loop when it goes on.
-/

set_option autoImplicit false
set_option relaxedAutoImplicit false

namespace Peephole.Source

/-- The angle that a token is by itself. -/
def Token.angle? : Token → Option Angle
  | int n => some (.constant (Float.ofNat n))
  | float x => some (.constant x)
  | mark .pi => some .pi
  | identifier name => some (.symbol name)
  | _ => none

namespace Layered

/-! ### The layers -/

/-- The layers that have operators. -/
inductive Layer where
  | sum
  | product

/-- How a token joins two parts of a layer. -/
def Layer.join? : Layer → Token → Option (Angle → Angle → Angle)
  | sum, .mark .plus => some .add
  | sum, .mark .minus => some .sub
  | product, .mark .star => some .mul
  | product, .mark .slash => some .div
  | _, _ => none

/-- An angle with a minus in front of it. A number takes the sign itself. -/
def minus : Angle → Angle
  | .constant v => .constant (-v)
  | e => .neg e

/-- A sum stands above the products that it is made of. -/
def Layer.height : Layer → Nat
  | sum => 2
  | product => 0

section Results

variable {α β γ : Type} {ts : Tokens}

theorem length_andThen (first : Parsed α ts) (next : Advanced β first.val.2) :
    next.val.2.length < ts.length :=
  Nat.lt_of_le_of_lt next.property first.property

theorem length_past (t : Located) (r : Parsed α ts) : r.val.2.length < (t :: ts).length :=
  Nat.lt_succ_of_lt r.property

/-- Two results in a row as one. -/
def andThen (f : α → β → γ) (first : Parsed α ts) (next : Advanced β first.val.2) : Parsed γ ts :=
  ⟨(f first.val.1 next.val.1, next.val.2), length_andThen first next⟩

/-- A result after a token. -/
def past (f : α → β) (t : Located) (r : Parsed α ts) : Parsed β (t :: ts) :=
  ⟨(f r.val.1, r.val.2), length_past t r⟩

def advanced (r : Parsed α ts) : Advanced α ts :=
  ⟨r.val, Nat.le_of_lt r.property⟩

end Results

/-- Parts joined from left to right. -/
def joined (first : Angle) (more : List ((Angle → Angle → Angle) × Angle)) : Angle :=
  more.foldl (fun left next ↦ next.1 left next.2) first

/-- Reads a closing parenthesis. -/
def closing : (ts : Tokens) → Except SourceFault (Advanced Unit ts)
  | [] => .error (unexpected (.mark .rightParen) [])
  | t :: rest =>
    if t.token = .mark .rightParen then .ok ⟨((), rest), Nat.le_succ _⟩
    else .error (unexpected (.mark .rightParen) (t :: rest))

mutual

/-- Reads the parts of a layer with its operators between them. -/
def chain (layer : Layer) (ts : Tokens) : Except SourceFault (Parsed Angle ts) := do
  let first ← part layer ts
  let more ← further layer first.val.2
  return andThen joined first more
termination_by 6 * ts.length + layer.height + 3
decreasing_by
  · omega
  · have := first.property; omega

/-- Reads a part of a layer: a term of a sum is a product, and a factor of a product is a signed
operand. -/
def part : Layer → (ts : Tokens) → Except SourceFault (Parsed Angle ts)
  | .sum, ts => chain .product ts
  | .product, ts => signed ts
termination_by layer ts => 6 * ts.length + layer.height + 2
decreasing_by
  · simp only [Layer.height]; omega
  · simp only [Layer.height]; omega

/-- Reads the further parts of a layer, each after an operator. -/
def further (layer : Layer) :
    (ts : Tokens) → Except SourceFault (Advanced (List ((Angle → Angle → Angle) × Angle)) ts)
  | [] => .ok ⟨([], []), Nat.le_refl _⟩
  | t :: rest =>
    match layer.join? t.token with
    | none => .ok ⟨([], t :: rest), Nat.le_refl _⟩
    | some join => do
      let e ← part layer rest
      let more ← further layer e.val.2
      return advanced (past id t (andThen (fun e more ↦ (join, e) :: more) e more))
termination_by ts => 6 * ts.length
decreasing_by
  · cases layer <;> simp only [List.length_cons, Layer.height] <;> omega
  · have := e.property; simp only [List.length_cons]; omega

/-- Reads an operand after any number of minus signs. -/
def signed : (ts : Tokens) → Except SourceFault (Parsed Angle ts)
  | [] => operand []
  | t :: rest =>
    if t.token = .mark .minus then do
      let e ← signed rest
      return past minus t e
    else operand (t :: rest)
termination_by ts => 6 * ts.length + 1

/-- Reads a number, π, a symbol, or a sum in parentheses. -/
def operand : (ts : Tokens) → Except SourceFault (Parsed Angle ts)
  | [] => .error (unexpected .expression [])
  | t :: rest =>
    if t.token = .mark .leftParen then do
      let e ← chain .sum rest
      let close ← closing e.val.2
      return past id t (andThen (fun e _ ↦ e) e close)
    else
      match t.token.angle? with
      | some e => .ok ⟨(e, rest), Nat.lt_succ_self _⟩
      | none => .error (unexpected .expression (t :: rest))
termination_by ts => 6 * ts.length
decreasing_by
  simp only [List.length_cons, Layer.height]
  omega

end

/-- Reads an angle by its layers. -/
def sum (ts : Tokens) : Except SourceFault (Parsed Angle ts) :=
  chain .sum ts

end Layered

/-! ### Outcomes -/

section View

variable {α β : Type} {p : α × Tokens → Prop} {q : β × Tokens → Prop}

/-- The outcome of a parser without the bound on the tokens left. -/
def view (r : Except SourceFault { r // p r }) : Except SourceFault (α × Tokens) :=
  r.map Subtype.val

theorem view_injective {x y : Except SourceFault { r // p r }} (h : view x = view y) : x = y := by
  cases x with
  | error fault =>
    cases y with
    | error fault' => exact congrArg _ (Except.error.inj h)
    | ok r => cases h
  | ok r =>
    cases y with
    | error fault => cases h
    | ok s => exact congrArg _ (Subtype.ext (Except.ok.inj h))

theorem reads_iff_view {x : Except SourceFault { r // p r }} {a : α} {rest : Tokens} :
    Reads x a rest ↔ view x = .ok (a, rest) := by
  constructor
  · rintro ⟨h, rfl⟩
    rfl
  · intro h
    obtain ⟨⟨r, hr⟩, rfl, rfl⟩ := Run.map_eq_ok.mp h
    exact ⟨hr, rfl⟩

theorem length_lt_of_view {ts : Tokens} {x : Except SourceFault (Parsed α ts)} {r : α × Tokens}
    (h : view x = .ok r) : r.2.length < ts.length := by
  obtain ⟨⟨r, hr⟩, -, rfl⟩ := Run.map_eq_ok.mp h
  exact hr

theorem view_bind {x : Except SourceFault { r // p r }}
    {f : { r // p r } → Except SourceFault { r // q r }}
    {k : α × Tokens → Except SourceFault (β × Tokens)} (h : ∀ r, view (f r) = k r.val) :
    view (x >>= f) = view x >>= k := by
  cases x with
  | error fault => rfl
  | ok r => exact h r

/-- A result with a weaker bound. -/
theorem view_relax {q : α × Tokens → Prop} {x : Except SourceFault { r // p r }}
    (h : ∀ a rest, p (a, rest) → q (a, rest)) :
    view (x >>= fun r ↦ (pure ⟨(r.val.1, r.val.2), h _ _ r.property⟩ :
      Except SourceFault { r // q r })) = view x := by
  cases x <;> rfl

/-- What follows a parser matters only if the parser succeeds. -/
theorem bind_congr_of_ok {x : Except SourceFault α} {f g : α → Except SourceFault β}
    (h : ∀ a, x = .ok a → f a = g a) : x >>= f = x >>= g := by
  cases x with
  | error fault => rfl
  | ok a => exact h a rfl

end View

/-! ### Single steps of climbing -/

section Climbing

variable {ts ts₁ : Tokens} {least : Nat} {left : Angle} {op : Operator}

theorem view_binary :
    view (binary least ts) = view (unary ts) >>= fun r ↦ view (climb least r.1 r.2) := by
  rw [binary]
  exact view_bind fun r ↦ view_relax fun _ _ h' ↦ Nat.lt_of_le_of_lt h' r.property

theorem view_climb_of_not_binds (h : ¬ Binds least ts) :
    view (climb least left ts) = .ok (left, ts) :=
  reads_iff_view.mp ((reads_climb_of_not_binds h).mpr ⟨rfl, rfl⟩)

theorem view_climb_of_begins (h : Begins ts [.mark op.mark] ts₁) (hle : least ≤ op.precedence) :
    view (climb least left ts) = view (binary (op.precedence + 1) ts₁) >>= fun r ↦
      view (climb least (op.combine left r.1) r.2) := by
  obtain ⟨line, rfl⟩ := begins_singleton.mp h
  rw [climb, Operator.ofToken?_eq_some.mpr rfl]
  simp only [if_neg (Nat.not_lt.mpr hle)]
  exact view_bind fun r ↦ view_relax fun _ _ h₂ ↦
    Nat.le_succ_of_le (Nat.le_of_lt (Nat.lt_of_le_of_lt h₂ r.property))

/-- Only operands bind more tightly than all operators. -/
theorem view_binary_three : view (binary 3 ts) = view (unary ts) := by
  rw [view_binary]
  simp only [view_climb_of_not_binds (not_binds_of_three_le (Nat.le_refl 3))]
  exact bind_pure _

theorem view_unary_of_begins (h : Begins ts [.mark .minus] ts₁) :
    view (unary ts) = view (unary ts₁) >>= fun r ↦ .ok (negated r.1, r.2) := by
  obtain ⟨line, rfl⟩ := begins_singleton.mp h
  rw [unary, if_pos (isMark_iff.mpr rfl)]
  exact view_bind fun r ↦ rfl

theorem view_unary_of_not_startsWith (h : ¬ StartsWith ts .minus) :
    view (unary ts) = view (primary ts) := by
  cases ts with
  | nil => rw [unary]
  | cons t ts => rw [unary, if_neg fun hm ↦ h (startsWith_cons.mpr hm)]

theorem view_primary_of_begins (h : Begins ts [.mark .leftParen] ts₁) :
    view (primary ts) = view (binary 0 ts₁) >>= fun r ↦
      view (expectMark .rightParen r.2) >>= fun s ↦ .ok (r.1, s.2) := by
  obtain ⟨line, rfl⟩ := begins_singleton.mp h
  rw [primary]
  exact view_bind fun r ↦ view_bind fun s ↦ rfl

theorem Operator.precedence_pos (op : Operator) : 1 ≤ op.precedence := by
  cases op <;> decide

end Climbing

/-! ### Single steps in layers -/

namespace Layered

/-- How tightly the operators of a layer bind. -/
def Layer.precedence : Layer → Nat
  | sum => 1
  | product => 2

section Steps

variable {ts ts₁ : Tokens} {op : Operator} {layer : Layer}

theorem minus_eq_negated (e : Angle) : minus e = negated e := by
  cases e <;> rfl

theorem join?_mark (hop : op.precedence = layer.precedence) :
    layer.join? (.mark op.mark) = some op.combine := by
  cases op <;> cases layer <;> first | rfl | cases hop

theorem exists_operator_of_join? {t : Token} {join : Angle → Angle → Angle}
    (h : layer.join? t = some join) :
    ∃ op : Operator, t = .mark op.mark ∧ op.precedence = layer.precedence := by
  unfold Layer.join? at h
  split at h
  · exact ⟨.add, rfl, rfl⟩
  · exact ⟨.sub, rfl, rfl⟩
  · exact ⟨.mul, rfl, rfl⟩
  · exact ⟨.div, rfl, rfl⟩
  · cases h

theorem view_chain : view (chain layer ts) = view (part layer ts) >>= fun r ↦
    view (further layer r.2) >>= fun s ↦ .ok (joined r.1 s.1, s.2) := by
  rw [chain]
  exact view_bind fun r ↦ view_bind fun s ↦ rfl

theorem view_further_of_begins (layer : Layer) (h : Begins ts [.mark op.mark] ts₁)
    (hop : op.precedence = layer.precedence) :
    view (further layer ts) = view (part layer ts₁) >>= fun r ↦
      view (further layer r.2) >>= fun s ↦ .ok ((op.combine, r.1) :: s.1, s.2) := by
  obtain ⟨line, rfl⟩ := begins_singleton.mp h
  rw [further, join?_mark hop]
  exact view_bind fun r ↦ view_bind fun s ↦ rfl

theorem view_further_of_not_binds (layer : Layer) (h : ¬ Binds layer.precedence ts) :
    view (further layer ts) = .ok ([], ts) := by
  cases ts with
  | nil => rw [further]; rfl
  | cons t ts =>
    rw [further]
    cases hjoin : layer.join? t.token with
    | none => rfl
    | some join =>
      obtain ⟨op, ht, hprecedence⟩ := exists_operator_of_join? hjoin
      exact absurd ⟨op, ts, begins_of_isMark (isMark_iff.mpr ht), Nat.le_of_eq hprecedence.symm⟩ h

theorem view_signed_of_begins (h : Begins ts [.mark .minus] ts₁) :
    view (signed ts) = view (signed ts₁) >>= fun r ↦ .ok (negated r.1, r.2) := by
  obtain ⟨line, rfl⟩ := begins_singleton.mp h
  rw [signed, if_pos rfl]
  exact view_bind fun r ↦ congrArg (fun e ↦ Except.ok (e, r.val.2)) (minus_eq_negated r.val.1)

theorem view_signed_of_not_startsWith (h : ¬ StartsWith ts .minus) :
    view (signed ts) = view (operand ts) := by
  cases ts with
  | nil => rw [signed]
  | cons t ts => rw [signed, if_neg fun hm ↦ h (startsWith_cons.mpr (isMark_iff.mpr hm))]

theorem view_closing : view (closing ts) = view (expectMark .rightParen ts) := by
  cases ts with
  | nil => rfl
  | cons t ts =>
    rw [closing, expectMark]
    by_cases hclose : t.token = .mark .rightParen
    · rw [if_pos hclose, if_pos (isMark_iff.mpr hclose)]
      rfl
    · rw [if_neg hclose, if_neg fun hm ↦ hclose (isMark_iff.mp hm)]
      rfl

theorem view_operand_of_begins (h : Begins ts [.mark .leftParen] ts₁) :
    view (operand ts) = view (chain .sum ts₁) >>= fun r ↦
      view (expectMark .rightParen r.2) >>= fun s ↦ .ok (r.1, s.2) := by
  obtain ⟨line, rfl⟩ := begins_singleton.mp h
  rw [operand, if_pos rfl]
  refine view_bind fun r ↦ ?_
  rw [← view_closing]
  exact view_bind fun s ↦ rfl

/-- An operand without parentheses is a single token, and both refuse the same tokens. -/
theorem view_primary_of_not_startsWith (h : ¬ StartsWith ts .leftParen) :
    view (primary ts) = view (operand ts) := by
  cases ts with
  | nil => rw [primary, operand]
  | cons t ts =>
    obtain ⟨line, token⟩ := t
    have hparen : token ≠ .mark .leftParen :=
      fun htoken ↦ h (startsWith_cons.mpr (isMark_iff.mpr htoken))
    rw [operand, if_neg hparen, primary]
    cases token with
    | mark m => cases m <;> first | rfl | exact absurd rfl hparen
    | float x => rfl
    | int n => rfl
    | string s => rfl
    | identifier name => rfl

end Steps

/-! ### Agreement -/

section Agreement

variable {ts : Tokens} {least n : Nat} {left : Angle} {layer : Layer}

/-- Where operators that bind more tightly than a layer have been passed, the loop reads the further
parts of the layer. After each part it is at such a place again. -/
theorem view_climb_layer (hleast : ∀ op : Operator, least ≤ op.precedence ↔
      layer.precedence ≤ op.precedence)
    (hpart : ∀ ts' : Tokens, ts'.length < ts.length →
      view (binary (layer.precedence + 1) ts') = view (part layer ts'))
    (hstop : ¬ Binds (layer.precedence + 1) ts) : view (climb least left ts) =
      view (further layer ts) >>= fun s ↦ .ok (joined left s.1, s.2) := by
  obtain ⟨n, hn⟩ : ∃ n, ts.length = n := ⟨_, rfl⟩
  induction n using Nat.strongRecOn generalizing ts left with
  | ind n ih =>
    by_cases hbinds : Binds layer.precedence ts
    · obtain ⟨op, ts₁, hop, hle⟩ := hbinds
      have hprecedence : op.precedence = layer.precedence :=
        Nat.le_antisymm (Nat.le_of_not_lt fun hlt ↦ hstop ⟨op, ts₁, hop, hlt⟩) hle
      have hlength := hop.length_lt
      rw [view_climb_of_begins hop ((hleast op).mpr hle),
        view_further_of_begins layer hop hprecedence, hprecedence, hpart ts₁ hlength, bind_assoc]
      refine bind_congr_of_ok fun r hr ↦ ?_
      have hrest := length_lt_of_view hr
      have hend : ¬ Binds (layer.precedence + 1) r.2 := by
        rw [← hpart ts₁ hlength, ← hprecedence] at hr
        rw [← hprecedence]
        exact (anglesInGrammar ts₁ _ (Nat.succ_le_succ op.precedence_le_two) r.1 r.2
          (reads_iff_view.mpr hr)).2
      rw [ih r.2.length (by omega) (fun ts' hts' ↦ hpart ts' (by omega)) hend rfl, bind_assoc]
      rfl
    · have hnot : ¬ Binds least ts := fun ⟨op, rest, hop, hle⟩ ↦
        hbinds ⟨op, rest, hop, (hleast op).mp hle⟩
      rw [view_climb_of_not_binds hnot, view_further_of_not_binds layer hbinds]
      rfl

/-- The loop may be interrupted after the operators of products. -/
theorem view_climb_split (hleast : least ≤ 2) : view (climb least left ts) =
    view (climb 2 left ts) >>= fun r ↦ view (climb least r.1 r.2) := by
  obtain ⟨n, hn⟩ : ∃ n, ts.length = n := ⟨_, rfl⟩
  induction n using Nat.strongRecOn generalizing ts left with
  | ind n ih =>
    by_cases hbinds : Binds 2 ts
    · obtain ⟨op, ts₁, hop, hle⟩ := hbinds
      rw [view_climb_of_begins hop (Nat.le_trans hleast hle), view_climb_of_begins hop hle,
        bind_assoc]
      refine bind_congr_of_ok fun r hr ↦ ih r.2.length ?_ rfl
      exact hn ▸ Nat.lt_trans (length_lt_of_view hr) hop.length_lt
    · rw [view_climb_of_not_binds hbinds]
      rfl

/-- Signed operands are read in the same way from fewer than `n` tokens. -/
def Agree (n : Nat) : Prop :=
  ∀ ts : Tokens, ts.length < n → view (unary ts) = view (signed ts)

theorem view_binary_two (hagree : Agree n) (hn : ts.length < n) :
    view (binary 2 ts) = view (chain .product ts) := by
  rw [view_binary, view_chain, part, hagree ts hn]
  refine bind_congr_of_ok fun r hr ↦ ?_
  have hrest := length_lt_of_view hr
  refine view_climb_layer (fun _ ↦ Iff.rfl) (fun ts' hts' ↦ ?_)
    (not_binds_of_three_le (Nat.le_refl 3))
  rw [part, ← hagree ts' (by omega)]
  exact view_binary_three

/-- A sum is read as a product and then further terms. -/
theorem view_binary_of_le_one (hleast : least ≤ 1) (hagree : Agree n) (hn : ts.length < n) :
    view (binary least ts) = view (chain .sum ts) := by
  have hproduct : view (binary least ts) =
      view (binary 2 ts) >>= fun r ↦ view (climb least r.1 r.2) := by
    rw [view_binary, view_binary, bind_assoc]
    exact bind_congr fun r ↦ view_climb_split (Nat.le_succ_of_le hleast)
  have hprecedence (op : Operator) : least ≤ op.precedence ↔ 1 ≤ op.precedence :=
    iff_of_true (Nat.le_trans hleast op.precedence_pos) op.precedence_pos
  rw [hproduct, view_chain, part, ← view_binary_two hagree hn]
  refine bind_congr_of_ok fun r hr ↦ ?_
  have hrest := length_lt_of_view hr
  refine view_climb_layer hprecedence (fun ts' hts' ↦ ?_)
    (anglesInGrammar ts 2 (by decide) r.1 r.2 (reads_iff_view.mpr hr)).2
  rw [part]
  exact view_binary_two hagree (by omega)

theorem agree (n : Nat) : Agree n := by
  induction n with
  | zero => exact fun ts hts ↦ absurd hts (Nat.not_lt_zero _)
  | succ n ih =>
    intro ts hts
    by_cases hminus : StartsWith ts .minus
    · obtain ⟨ts₁, hminus⟩ := hminus
      have hlength := hminus.length_lt
      rw [view_unary_of_begins hminus, view_signed_of_begins hminus, ih ts₁ (by omega)]
    · rw [view_unary_of_not_startsWith hminus, view_signed_of_not_startsWith hminus]
      by_cases hparen : StartsWith ts .leftParen
      · obtain ⟨ts₁, hparen⟩ := hparen
        have hlength := hparen.length_lt
        rw [view_primary_of_begins hparen, view_operand_of_begins hparen,
          view_binary_of_le_one (Nat.zero_le 1) ih (by omega)]
      · exact view_primary_of_not_startsWith hparen

end Agreement

end Layered

/-- Precedence climbing and reading by layers do the same with all tokens: they read the same angle
and leave the same tokens, or they fail with the same fault. -/
theorem binary_zero_eq_sum (ts : Tokens) : binary 0 ts = Layered.sum ts :=
  view_injective (Layered.view_binary_of_le_one (Nat.zero_le 1) (Layered.agree _)
    (Nat.lt_succ_self ts.length))

end Peephole.Source
