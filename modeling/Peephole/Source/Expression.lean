import Peephole.Angle
import Peephole.Source.Parser

/-!
# Reading angles

`expression` reads an angle by precedence climbing: an operand, and then operators that bind at
least as tightly as required, each with a right operand of which only tighter operators are part. So
operators of one precedence associate to the left. A minus in front of a number is part of the
number.
-/

set_option autoImplicit false
set_option relaxedAutoImplicit false

namespace Peephole.Source

/-- The operators between two angles. -/
inductive Operator where
  | add
  | sub
  | mul
  | div
deriving DecidableEq, Repr

namespace Operator

/-- How tightly an operator binds. -/
def precedence : Operator → Nat
  | add => 1
  | sub => 1
  | mul => 2
  | div => 2

def combine : Operator → Angle → Angle → Angle
  | add => .add
  | sub => .sub
  | mul => .mul
  | div => .div

/-- The operator that a token is. -/
def ofToken? : Token → Option Operator
  | .mark .plus => some add
  | .mark .minus => some sub
  | .mark .star => some mul
  | .mark .slash => some div
  | _ => none

end Operator

/-- The negative of an angle that follows a minus; a number takes the sign itself. -/
def negated : Angle → Angle
  | .constant v => .constant (-v)
  | e => .neg e

mutual

/-- Reads an angle whose outermost operators bind at least as tightly as `least`. -/
def binary (least : Nat) (ts : Tokens) : Except SourceFault (Parsed Angle ts) := do
  let ⟨(left, rest), h⟩ ← unary ts
  let ⟨(e, rest'), h'⟩ ← climb least left rest
  return ⟨(e, rest'), Nat.lt_of_le_of_lt h' h⟩
termination_by 3 * ts.length + 2
decreasing_by
  · omega
  · dsimp only at h; omega

/-- Reads the operators after the operand `left`, as long as they bind at least as tightly as
`least`. -/
def climb (least : Nat) (left : Angle) : (ts : Tokens) → Except SourceFault (Advanced Angle ts)
  | [] => .ok ⟨(left, []), Nat.le_refl _⟩
  | t :: rest =>
    match Operator.ofToken? t.token with
    | none => .ok ⟨(left, t :: rest), Nat.le_refl _⟩
    | some op =>
      if op.precedence < least then .ok ⟨(left, t :: rest), Nat.le_refl _⟩
      else do
        let ⟨(right, rest₁), h₁⟩ ← binary (op.precedence + 1) rest
        let ⟨(e, rest₂), h₂⟩ ← climb least (op.combine left right) rest₁
        return ⟨(e, rest₂), Nat.le_succ_of_le (Nat.le_of_lt (Nat.lt_of_le_of_lt h₂ h₁))⟩
termination_by ts => 3 * ts.length
decreasing_by
  · simp only [List.length_cons]; omega
  · dsimp only at h₁; simp only [List.length_cons]; omega

/-- Reads an operand with the minus signs in front of it. -/
def unary : (ts : Tokens) → Except SourceFault (Parsed Angle ts)
  | [] => primary []
  | t :: rest =>
    if t.token.isMark .minus then do
      let ⟨(e, rest'), h⟩ ← unary rest
      return ⟨(negated e, rest'), Nat.lt_succ_of_lt h⟩
    else primary (t :: rest)
termination_by ts => 3 * ts.length + 1

/-- Reads a number, π, a symbol, or an angle in parentheses. -/
def primary : (ts : Tokens) → Except SourceFault (Parsed Angle ts)
  | [] => .error (unexpected .expression [])
  | t :: rest =>
    match t.token with
    | .int n => .ok ⟨(.constant (Float.ofNat n), rest), Nat.lt_succ_self _⟩
    | .float x => .ok ⟨(.constant x, rest), Nat.lt_succ_self _⟩
    | .mark .pi => .ok ⟨(.pi, rest), Nat.lt_succ_self _⟩
    | .identifier name => .ok ⟨(.symbol name, rest), Nat.lt_succ_self _⟩
    | .mark .leftParen => do
      let ⟨(e, rest₁), h₁⟩ ← binary 0 rest
      let ⟨(_, rest₂), h₂⟩ ← expectMark .rightParen rest₁
      return ⟨(e, rest₂), Nat.lt_succ_of_lt (Nat.lt_trans h₂ h₁)⟩
    | _ => .error (unexpected .expression (t :: rest))
termination_by ts => 3 * ts.length

end

/-- Reads an angle. -/
def expression (ts : Tokens) : Except SourceFault (Parsed Angle ts) :=
  binary 0 ts

/-- Reads the further angles of a list, each after a comma. -/
def moreExpressions : (ts : Tokens) → Except SourceFault (Advanced (List Angle) ts)
  | [] => .ok ⟨([], []), Nat.le_refl _⟩
  | t :: rest =>
    if t.token.isMark .comma then do
      let ⟨(e, rest₁), h₁⟩ ← expression rest
      let ⟨(es, rest₂), h₂⟩ ← moreExpressions rest₁
      return ⟨(e :: es, rest₂), Nat.le_succ_of_le (Nat.le_of_lt (Nat.lt_of_le_of_lt h₂ h₁))⟩
    else .ok ⟨([], t :: rest), Nat.le_refl _⟩
termination_by ts => ts.length
decreasing_by
  dsimp only at h₁
  simp only [List.length_cons]
  omega

/-- Reads the angles between parentheses, of which the closing one is left. -/
def expressionList (ts : Tokens) : Except SourceFault (Advanced (List Angle) ts) :=
  if ts.head?.any (·.token.isMark .rightParen) then .ok ⟨([], ts), Nat.le_refl _⟩
  else do
    let ⟨(e, rest₁), h₁⟩ ← expression ts
    let ⟨(es, rest₂), h₂⟩ ← moreExpressions rest₁
    return ⟨(e :: es, rest₂), Nat.le_of_lt (Nat.lt_of_le_of_lt h₂ h₁)⟩

/-- Reads the parameters of a gate, if there are any. -/
def parameters : (ts : Tokens) → Except SourceFault (Advanced (List Angle) ts)
  | [] => .ok ⟨([], []), Nat.le_refl _⟩
  | t :: rest =>
    if t.token.isMark .leftParen then do
      let ⟨(es, rest₁), h₁⟩ ← expressionList rest
      let ⟨(_, rest₂), h₂⟩ ← expectMark .rightParen rest₁
      return ⟨(es, rest₂), Nat.le_succ_of_le (Nat.le_trans (Nat.le_of_lt h₂) h₁)⟩
    else .ok ⟨([], t :: rest), Nat.le_refl _⟩

end Peephole.Source
