/-!
# Patterns of text

A `Pattern` is a regular expression over characters. `Pattern.longest` gives the length of the
longest text that a pattern matches at the start of another one. It goes through the text and keeps
what the pattern still asks for after each character (`Pattern.after`).

Where two patterns match the same text, the one of higher priority takes it (`Pattern.priority`): a
character that is fixed counts two, one from a larger set counts one, and what may be left out
counts nothing.
-/

set_option autoImplicit false
set_option relaxedAutoImplicit false

namespace Peephole.Source

/-- The characters in some ranges, or all others. -/
structure CharSet where
  ranges : List (Char × Char)
  negated : Bool
deriving DecidableEq, Repr

namespace CharSet

def has (s : CharSet) (c : Char) : Bool :=
  s.ranges.any (fun range ↦ range.1 ≤ c && c ≤ range.2) != s.negated

/-- Whether the set has one character. -/
def isFixed : CharSet → Bool
  | ⟨[range], false⟩ => range.1 = range.2
  | _ => false

/-- The given characters. -/
def of (cs : List Char) : CharSet :=
  ⟨cs.map fun c ↦ (c, c), false⟩

/-- All but the given characters. -/
def except (cs : List Char) : CharSet :=
  ⟨cs.map fun c ↦ (c, c), true⟩

end CharSet

/-- A pattern of text. -/
inductive Pattern where
  /-- No text. -/
  | never
  /-- The empty text. -/
  | empty
  /-- A character of a set. -/
  | one (set : CharSet)
  | seq (first second : Pattern)
  | either (first second : Pattern)
  /-- Any number of texts of a pattern. -/
  | many (item : Pattern)
deriving DecidableEq, Repr

namespace Pattern

/-- A fixed character. -/
def char (c : Char) : Pattern :=
  one (.of [c])

/-- A fixed text. -/
def literal (text : String) : Pattern :=
  text.toList.foldr (fun c rest ↦ seq (char c) rest) empty

/-- One or more texts of a pattern. -/
def repeated (item : Pattern) : Pattern :=
  seq item (many item)

def optional (item : Pattern) : Pattern :=
  either item empty

/-- Whether the empty text matches. -/
def isNullable : Pattern → Bool
  | never => false
  | empty => true
  | one _ => false
  | seq p q => p.isNullable && q.isNullable
  | either p q => p.isNullable || q.isNullable
  | many _ => true

/-- A sequence, without a first part that is empty or never matches. -/
def followedBy : Pattern → Pattern → Pattern
  | never, _ => never
  | empty, q => q
  | p, q => seq p q

/-- A choice, without a part that never matches. -/
def orElse : Pattern → Pattern → Pattern
  | never, q => q
  | p, never => p
  | p, q => either p q

/-- What a pattern asks for after a character. -/
def after (c : Char) : Pattern → Pattern
  | never => never
  | empty => never
  | one set => if set.has c then empty else never
  | seq p q =>
    if p.isNullable then ((p.after c).followedBy q).orElse (q.after c) else (p.after c).followedBy q
  | either p q => (p.after c).orElse (q.after c)
  | many p => (p.after c).followedBy (many p)

def isNever : Pattern → Bool
  | never => true
  | _ => false

/-- The length of the longest match at the start of a text, if there is one. `read` characters have
been read before it, and `best` is the longest match that ends among them. -/
def longestFrom (p : Pattern) (read : Nat) (best : Option Nat) : List Char → Option Nat
  | [] => if p.isNullable then some read else best
  | c :: cs =>
    let best := if p.isNullable then some read else best
    let rest := p.after c
    if rest.isNever then best else rest.longestFrom (read + 1) best cs

/-- The length of the longest match at the start of a text, if there is one. -/
def longest (p : Pattern) (cs : List Char) : Option Nat :=
  p.longestFrom 0 none cs

/-- The priority of a pattern among those that match the same text. -/
def priority : Pattern → Nat
  | never => 0
  | empty => 0
  | one set => if set.isFixed then 2 else 1
  | seq p q => p.priority + q.priority
  | either p q => min p.priority q.priority
  | many _ => 0

end Pattern

end Peephole.Source
