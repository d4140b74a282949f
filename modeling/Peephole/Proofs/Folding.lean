import Peephole.Proofs.RoundTrip

/-!
# Reading written angles

An angle of any shape is written and read again. What comes back is the angle with every minus in
front of a number made part of the number (`Angle.fold`), so an angle comes back unchanged exactly
if it has no such minus. Its operators keep their operands and their grouping in any case
(`Source.reads_render`).

For this the text of an angle has as many parentheses as its grammar needs: the right operand of an
operator, the operand of a minus and a sum in a product have to keep theirs.
-/

set_option autoImplicit false
set_option relaxedAutoImplicit false

namespace Peephole

open Source Source.Lexer Source.Grammar Decimal

/-! ### Folding -/

/-- An angle without its signs and the values of its numbers: what its operators are applied to, and
how they are grouped. -/
inductive Grouping where
  | number
  | symbol (name : String)
  | pi
  | operation (op : Operator) (left right : Grouping)

namespace Angle

/-- Makes a minus in front of a number part of the number, from the inside out. -/
def fold : Angle → Angle
  | constant v => constant v
  | symbol name => symbol name
  | pi => pi
  | neg e =>
    match e.fold with
    | constant v => constant (-v)
    | folded => neg folded
  | add a b => add a.fold b.fold
  | sub a b => sub a.fold b.fold
  | mul a b => mul a.fold b.fold
  | div a b => div a.fold b.fold

/-- An angle with all angles that occur in it. -/
def subterms : Angle → List Angle
  | constant v => [constant v]
  | symbol name => [symbol name]
  | pi => [pi]
  | neg e => neg e :: e.subterms
  | add a b => add a b :: (a.subterms ++ b.subterms)
  | sub a b => sub a b :: (a.subterms ++ b.subterms)
  | mul a b => mul a b :: (a.subterms ++ b.subterms)
  | div a b => div a b :: (a.subterms ++ b.subterms)

def grouping : Angle → Grouping
  | constant _ => .number
  | symbol name => .symbol name
  | pi => .pi
  | neg e => e.grouping
  | add a b => .operation .add a.grouping b.grouping
  | sub a b => .operation .sub a.grouping b.grouping
  | mul a b => .operation .mul a.grouping b.grouping
  | div a b => .operation .div a.grouping b.grouping

variable {e a b : Angle}

theorem fold_neg : (neg e).fold = negated e.fold := by
  rw [fold]
  cases e.fold <;> rfl

theorem fold_combine (op : Operator) : (op.combine a b).fold = op.combine a.fold b.fold := by
  cases op <;> rfl

theorem subterms_combine (op : Operator) :
    (op.combine a b).subterms = op.combine a b :: (a.subterms ++ b.subterms) := by
  cases op <;> rfl

theorem grouping_combine (op : Operator) :
    (op.combine a b).grouping = .operation op a.grouping b.grouping := by
  cases op <;> rfl

theorem grouping_negated (e : Angle) : (negated e).grouping = e.grouping := by
  cases e <;> rfl

theorem fold_eq_reread (e : Angle) : e.fold = e.reread constant := by
  induction e using operatorInduction with
  | constant v => rfl
  | symbol name => rfl
  | pi => rfl
  | neg e ih => rw [fold_neg, reread, ih]
  | binary op a b iha ihb => rw [fold_combine, reread_combine, iha, ihb]

theorem folded_fold (e : Angle) : e.fold.Folded := by
  induction e using operatorInduction with
  | constant v => trivial
  | symbol name => trivial
  | pi => trivial
  | neg e ih => exact fold_neg ▸ folded_negated ih
  | binary op a b iha ihb => exact fold_combine op ▸ (folded_combine op).mpr ⟨iha, ihb⟩

theorem fold_eq_self_iff : e.fold = e ↔ e.Folded := by
  constructor
  · intro h
    exact h ▸ folded_fold e
  · intro h
    rw [fold_eq_reread, reread_constant h]

/-- Only a number takes the sign in front of it. -/
theorem negated_eq_neg_iff : negated e = neg e ↔ ∀ c, e ≠ constant c := by
  cases e with
  | constant v => exact iff_of_false nofun fun h ↦ h v rfl
  | _ => exact iff_of_true rfl nofun

theorem folded_iff : e.Folded ↔ ∀ c, neg (constant c) ∉ e.subterms := by
  induction e using operatorInduction with
  | constant v => simp [Folded, subterms]
  | symbol name => simp [Folded, subterms]
  | pi => simp [Folded, subterms]
  | neg e ih =>
    rw [Folded, negated_eq_neg_iff, ih, ← forall_and]
    refine forall_congr' fun c ↦ ?_
    rw [subterms, List.mem_cons, not_or, neg.injEq, eq_comm]
  | binary op a b iha ihb =>
    rw [folded_combine, iha, ihb, ← forall_and, subterms_combine]
    refine forall_congr' fun c ↦ ?_
    have hne : neg (constant c) ≠ op.combine a b := by cases op <;> nofun
    rw [List.mem_cons, List.mem_append, not_or, not_or]
    exact (and_iff_right hne).symm

theorem grouping_fold (e : Angle) : e.fold.grouping = e.grouping := by
  induction e using operatorInduction with
  | constant v => rfl
  | symbol name => rfl
  | pi => rfl
  | neg e ih => rw [fold_neg, grouping_negated, ih, grouping]
  | binary op a b iha ihb => rw [fold_combine, grouping_combine, grouping_combine, iha, ihb]

end Angle

/-! ### Texts of angles -/

namespace Source

variable {e : Angle}

theorem exists_reads_fold (hsymbols : ∀ name ∈ e.symbols, IsName name)
    (hconstants : ∀ c ∈ e.constants, PrintsAsLiteral c) :
    ∃ ts : Tokens, tokenize e.render = ts.map .ok ∧ Reads (expression ts) e.fold [] := by
  obtain ⟨ws, hws, hexpression⟩ := Angle.exists_expression fun c hc ↦ (hconstants c hc).readsAs
  have hcut := (Angle.cuts_render hsymbols).cut_eq
  obtain ⟨ts, hts, rfl⟩ := exists_tokens_of_map_wordOf (hcut.trans hws)
  have hbegins : Begins ts (ts.map Located.token) [] := ⟨ts, (List.append_nil ts).symm, rfl⟩
  refine ⟨ts, hts, ?_⟩
  rw [Angle.fold_eq_reread]
  exact reads_expression_of (hexpression.mono (Nat.zero_le _)) hbegins not_binds_nil

/-- The text of an angle is cut into tokens, and these are read to their end as the folded angle. So
the angle itself is read exactly if no minus in it stands in front of a number. The operators are
grouped as before. -/
theorem reads_render (hsymbols : ∀ name ∈ e.symbols, IsName name)
    (hconstants : ∀ c ∈ e.constants, PrintsAsLiteral c) :
    ∃ ts : Tokens, tokenize e.render = ts.map .ok ∧ Reads (expression ts) e.fold [] ∧
      (Reads (expression ts) e [] ↔ ∀ c, .neg (.constant c) ∉ e.subterms) ∧
      e.fold.grouping = e.grouping := by
  obtain ⟨ts, hts, hreads⟩ := exists_reads_fold hsymbols hconstants
  refine ⟨ts, hts, hreads, ?_, e.grouping_fold⟩
  rw [← Angle.folded_iff, ← Angle.fold_eq_self_iff]
  exact ⟨fun h ↦ (hreads.unique h).1, fun h ↦ h ▸ hreads⟩

/-- Signs of all kinds: two in a row, in parentheses, in front of a symbol, and of a divisor. -/
theorem reads_render_signs :
    let e : Angle := .sub (.neg (.constant (-3)))
      (.mul (.neg (.neg (.constant 0.5))) (.div (.neg (.symbol "t")) (.constant (-2))))
    let folded : Angle := .sub (.constant 3)
      (.mul (.constant 0.5) (.div (.neg (.symbol "t")) (.constant (-2))))
    e.render = "--3 - -(-0.5)*(-t/-2)" ∧ (∀ name ∈ e.symbols, IsName name) ∧
      (∀ c ∈ e.constants, PrintsAsLiteral c) ∧
      ∃ ts : Tokens, tokenize "--3 - -(-0.5)*(-t/-2)" = ts.map .ok ∧
        Reads (expression ts) folded [] ∧ ¬ Reads (expression ts) e [] := by
  intro e folded
  have hrender : e.render = "--3 - -(-0.5)*(-t/-2)" := by decide +kernel
  have hsymbols : ∀ name ∈ e.symbols, IsName name := by decide
  have hconstants : ∀ c ∈ e.constants, PrintsAsLiteral c := by
    have hlist : ∀ c ∈ e.constants, (magnitudeWord? c).bind Token.number? = some c.abs := by
      decide +kernel
    exact fun c hc ↦ printsAsLiteral_iff.mpr (hlist c hc)
  have hfold : e.fold = folded := by rfl
  obtain ⟨ts, hts, hfolded, hself, -⟩ := reads_render hsymbols hconstants
  refine ⟨hrender, hsymbols, hconstants, ts, hrender ▸ hts, hfold ▸ hfolded, fun h ↦ ?_⟩
  exact hself.mp h (-3) (by simp [e, Angle.subterms])

end Source

end Peephole
