import Peephole.Source.Fault

/-!
# Reading tokens

A parser takes the tokens that are left and gives a value with the tokens that are left after it, or
the reason why it cannot. The type `Parsed α ts` of its result says that it has used up at least one
token of `ts`, and `Advanced α ts` that it has not added any; loops over the tokens end for that
reason.
-/

set_option autoImplicit false
set_option relaxedAutoImplicit false

namespace Peephole.Source

/-- The tokens that are left. -/
abbrev Tokens := List Located

/-- A value with the tokens left after it, fewer than there were. -/
abbrev Parsed (α : Type) (ts : Tokens) := { r : α × Tokens // r.2.length < ts.length }

/-- A value with the tokens left after it, no more than there were. -/
abbrev Advanced (α : Type) (ts : Tokens) := { r : α × Tokens // r.2.length ≤ ts.length }

/-- The fault that the first of the tokens is not what was expected. -/
def unexpected (expected : Expected) : Tokens → SourceFault
  | [] => .unexpectedEnd (.expected expected)
  | t :: _ => .unexpectedToken t.line expected t.token

/-- Whether a token is the given mark. -/
def Token.isMark (m : Mark) : Token → Bool
  | mark other => other = m
  | _ => false

/-- Reads a mark. -/
def expectMark (m : Mark) : (ts : Tokens) → Except SourceFault (Parsed Unit ts)
  | [] => .error (unexpected (.mark m) [])
  | t :: rest =>
    if t.token.isMark m then .ok ⟨((), rest), Nat.lt_succ_self _⟩
    else .error (unexpected (.mark m) (t :: rest))

/-- Reads a string. -/
def expectString : (ts : Tokens) → Except SourceFault (Parsed String ts)
  | ⟨_, .string s⟩ :: rest => .ok ⟨(s, rest), Nat.lt_succ_self _⟩
  | ts => .error (unexpected .string ts)

/-- Reads an identifier. -/
def expectIdentifier : (ts : Tokens) → Except SourceFault (Parsed String ts)
  | ⟨_, .identifier name⟩ :: rest => .ok ⟨(name, rest), Nat.lt_succ_self _⟩
  | ts => .error (unexpected .identifier ts)

/-- Reads an integer and gives it with its line. -/
def expectInteger : (ts : Tokens) → Except SourceFault (Parsed (Nat × Nat) ts)
  | ⟨line, .int n⟩ :: rest => .ok ⟨((n, line), rest), Nat.lt_succ_self _⟩
  | ts => .error (unexpected .integer ts)

end Peephole.Source
