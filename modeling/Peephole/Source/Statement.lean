import Peephole.Program.Basic
import Peephole.Source.Expression

/-!
# Reading programs

A program is an optional version header followed by statements. A statement adds instructions to
the program: a declaration one, a gate call one, a `qif` block those of its body, each with the
block's qubit as a further guard in front, and an `include` or a lone semicolon none. Every name
must be declared before it is used, once, and outside of blocks.

The guards of the blocks that are open are a stack. A block pushes its guard before its body is read
and pops it afterwards, and every statement gives the stack that it leaves.
-/

set_option autoImplicit false
set_option relaxedAutoImplicit false

namespace Peephole.Source

/-- Reads a reference to a declared qubit. A register needs an index within its size, and a single
qubit takes none. -/
def reference (scope : List Declaration) (ts : Tokens) : Except SourceFault (Parsed Qubit ts) := do
  let ⟨(name, rest), h⟩ ← expectIdentifier ts
  match scope.find? (·.name = name) with
  | none => throw (.undefinedIdentifier name)
  | some d =>
    match rest, h with
    | t :: rest', h =>
      if t.token.isMark .leftBracket then
        let ⟨((index, _), rest₁), h₁⟩ ← expectInteger rest'
        let ⟨(_, rest₂), h₂⟩ ← expectMark .rightBracket rest₁
        match d.size with
        | none => throw (.indexMismatch name false)
        | some size =>
          if index < size then
            return ⟨(⟨name, some index⟩, rest₂),
              Nat.lt_trans (Nat.lt_trans h₂ h₁) (Nat.lt_of_succ_lt h)⟩
          throw (.indexOutOfBounds name index size)
      else if d.size.isSome then throw (.indexMismatch name true)
      else return ⟨(⟨name, none⟩, t :: rest'), h⟩
    | [], h =>
      if d.size.isSome then throw (.indexMismatch name true)
      else return ⟨(⟨name, none⟩, []), h⟩

/-- Reads the further references of a list, each after a comma. -/
def moreReferences (scope : List Declaration) :
    (ts : Tokens) → Except SourceFault (Advanced (List Qubit) ts)
  | [] => .ok ⟨([], []), Nat.le_refl _⟩
  | t :: rest =>
    if t.token.isMark .comma then do
      let ⟨(q, rest₁), h₁⟩ ← reference scope rest
      let ⟨(qs, rest₂), h₂⟩ ← moreReferences scope rest₁
      return ⟨(q :: qs, rest₂), Nat.le_succ_of_le (Nat.le_of_lt (Nat.lt_of_le_of_lt h₂ h₁))⟩
    else .ok ⟨([], t :: rest), Nat.le_refl _⟩
termination_by ts => ts.length
decreasing_by
  dsimp only at h₁
  simp only [List.length_cons]
  omega

/-- A `ctrl` or `negctrl` in front of a gate, for a number of guards. -/
structure Modifier where
  negated : Bool
  count : Nat
deriving DecidableEq, Repr

/-- Whether a token begins a modifier, and if so whether its guards are negated. -/
def Token.modifier? : Token → Option Bool
  | mark .ctrl => some false
  | mark .negctrl => some true
  | _ => none

/-- Reads the number of guards of a modifier, which is one if it is not given. -/
def modifierCount : (ts : Tokens) → Except SourceFault (Advanced Nat ts)
  | [] => .ok ⟨(1, []), Nat.le_refl _⟩
  | t :: rest =>
    if t.token.isMark .leftParen then do
      let ⟨((n, line), rest₁), h₁⟩ ← expectInteger rest
      let ⟨(_, rest₂), h₂⟩ ← expectMark .rightParen rest₁
      if n = 0 then throw (.modifierCount line)
      return ⟨(n, rest₂), Nat.le_succ_of_le (Nat.le_of_lt (Nat.lt_trans h₂ h₁))⟩
    else .ok ⟨(1, t :: rest), Nat.le_refl _⟩

/-- Reads the modifiers in front of a gate. -/
def modifiers : (ts : Tokens) → Except SourceFault (Advanced (List Modifier) ts)
  | [] => .ok ⟨([], []), Nat.le_refl _⟩
  | t :: rest =>
    match t.token.modifier? with
    | none => .ok ⟨([], t :: rest), Nat.le_refl _⟩
    | some negated => do
      let ⟨(count, rest₁), h₁⟩ ← modifierCount rest
      let ⟨(_, rest₂), h₂⟩ ← expectMark .atSign rest₁
      let ⟨(ms, rest₃), h₃⟩ ← modifiers rest₂
      return ⟨(⟨negated, count⟩ :: ms, rest₃),
        Nat.le_succ_of_le (Nat.le_trans h₃ (Nat.le_trans (Nat.le_of_lt h₂) h₁))⟩
termination_by ts => ts.length
decreasing_by
  dsimp only at h₁ h₂
  simp only [List.length_cons]
  omega

/-- The number of parameters of the standard gate with a name. -/
def paramCount? : String → Option Nat
  | "x" | "y" | "z" | "h" | "s" | "sdg" | "t" | "tdg" => some 0
  | "cx" | "cy" | "cz" | "swap" | "ccx" => some 0
  | "p" | "phase" | "rx" | "ry" | "rz" => some 1
  | _ => none

/-- The gate with a name on a number of targets. A standard gate must have its own number of
parameters and of targets. -/
def resolveGate (name : String) (params : List Angle) (targets : Nat) : Except SourceFault Gate :=
  match paramCount? name with
  | some expected =>
    match StandardGate.ofName? name params with
    | none => .error (.wrongParamCount name expected params.length)
    | some gate =>
      if gate.arity = targets then .ok (.standard gate)
      else .error (.wrongQubitCount name gate.arity targets)
  | none =>
    if targets ≤ maxSize then .ok (.custom name targets params)
    else .error (.tooManyOperands name)

/-- Adds the numbers of guards that modifiers ask for to a number, in 64 bits. -/
def guardCount (count : Nat) : List Modifier → Except SourceFault Nat
  | [] => .ok count
  | m :: ms =>
    if count + m.count < UInt64.size then guardCount (count + m.count) ms else .error .overflow

/-- The application of a gate whose first operands are taken as guards by the modifiers, after the
guards of the blocks around it. -/
def applyModifiers (blockGuards : List Guard) (ms : List Modifier) (name : String)
    (params : List Angle) (operands : List Qubit) : Except SourceFault Application := do
  let count ← guardCount 0 ms
  if operands.length ≤ count then
    throw (.wrongGuardCount name count operands.length)
  let targets := operands.drop count
  let flags := ms.flatMap fun m ↦ List.replicate m.count m.negated
  let guards := (operands.take count).zipWith (fun q negated ↦ Guard.mk q negated) flags
  let gate ← resolveGate name params targets.length
  return ⟨gate, targets, blockGuards ++ guards⟩

/-- Reads a gate call. -/
def gateCall (scope : List Declaration) (blockGuards : List Guard) (ts : Tokens) :
    Except SourceFault (Parsed Application ts) := do
  let ⟨(ms, rest₁), h₁⟩ ← modifiers ts
  let ⟨(name, rest₂), h₂⟩ ← expectIdentifier rest₁
  let ⟨(params, rest₃), h₃⟩ ← parameters rest₂
  let ⟨(q, rest₄), h₄⟩ ← reference scope rest₃
  let ⟨(qs, rest₅), h₅⟩ ← moreReferences scope rest₄
  let ⟨(_, rest₆), h₆⟩ ← expectMark .semicolon rest₅
  let application ← applyModifiers blockGuards ms name params (q :: qs)
  return ⟨(application, rest₆), by dsimp only at *; omega⟩

/-- Reads the size of a register, if there is one. -/
def registerSize : (ts : Tokens) → Except SourceFault (Advanced (Option Nat) ts)
  | [] => .ok ⟨(none, []), Nat.le_refl _⟩
  | t :: rest =>
    if t.token.isMark .leftBracket then do
      let ⟨((n, line), rest₁), h₁⟩ ← expectInteger rest
      let ⟨(_, rest₂), h₂⟩ ← expectMark .rightBracket rest₁
      if n = 0 || maxSize < n then throw (.registerSize line)
      return ⟨(some n, rest₂), Nat.le_succ_of_le (Nat.le_of_lt (Nat.lt_trans h₂ h₁))⟩
    else .ok ⟨(none, t :: rest), Nat.le_refl _⟩

/-- Reads a declaration after its keyword. -/
def declaration (scope : List Declaration) (ts : Tokens) :
    Except SourceFault (Parsed Declaration ts) := do
  let ⟨(size, rest₁), h₁⟩ ← registerSize ts
  let ⟨(name, rest₂), h₂⟩ ← expectIdentifier rest₁
  let ⟨(_, rest₃), h₃⟩ ← expectMark .semicolon rest₂
  if scope.any (·.name = name) then throw (.duplicateDeclaration name)
  return ⟨(⟨name, size⟩, rest₃), by dsimp only at *; omega⟩

/-- The kinds of statements, told apart by their first token. -/
inductive StatementKind where
  | inclusion
  | declaration
  | block
  | call
  | empty
deriving DecidableEq, Repr

/-- The kind of statement that a token begins. -/
def Token.statement? : Token → Option StatementKind
  | mark .inclusion => some .inclusion
  | mark .qubit => some .declaration
  | mark .qif => some .block
  | mark .ctrl => some .call
  | mark .negctrl => some .call
  | identifier _ => some .call
  | mark .semicolon => some .empty
  | _ => none

mutual

/-- Reads a statement within blocks with the given guards, and gives the guards that it leaves. -/
def statement (scope : List Declaration) (guards : List Guard) :
    (ts : Tokens) → Except SourceFault (Parsed (List Instruction × List Guard) ts)
  | [] => .error (unexpected .statement [])
  | t :: rest =>
    match t.token.statement? with
    | none => .error (unexpected .statement (t :: rest))
    | some .empty => .ok ⟨(([], guards), rest), Nat.lt_succ_self _⟩
    | some .inclusion => do
      let ⟨(_, rest₁), h₁⟩ ← expectString rest
      let ⟨(_, rest₂), h₂⟩ ← expectMark .semicolon rest₁
      return ⟨(([], guards), rest₂), Nat.lt_succ_of_lt (Nat.lt_trans h₂ h₁)⟩
    | some .declaration =>
      if guards.isEmpty then do
        let ⟨(d, rest₁), h₁⟩ ← declaration scope rest
        return ⟨(([.declare d], guards), rest₁), Nat.lt_succ_of_lt h₁⟩
      else .error (.declarationInBlock t.line)
    | some .call => do
      let ⟨(a, rest₁), h₁⟩ ← gateCall scope guards (t :: rest)
      return ⟨(([.apply a], guards), rest₁), h₁⟩
    | some .block => do
      let ⟨(q, rest₁), h₁⟩ ← reference scope rest
      let ⟨(_, rest₂), h₂⟩ ← expectMark .begin rest₁
      let ⟨((body, inner), rest₃), h₃⟩ ← block scope (guards ++ [⟨q, false⟩]) rest₂
      return ⟨((body, inner.dropLast), rest₃),
        Nat.lt_succ_of_lt (Nat.lt_trans h₃ (Nat.lt_trans h₂ h₁))⟩
termination_by ts => 2 * ts.length
decreasing_by
  dsimp only at h₁ h₂
  simp only [List.length_cons]
  omega

/-- Reads the statements of a block and the keyword that closes it. -/
def block (scope : List Declaration) (guards : List Guard) :
    (ts : Tokens) → Except SourceFault (Parsed (List Instruction × List Guard) ts)
  | [] => .error (.unexpectedEnd .blockEnd)
  | t :: rest =>
    if t.token.isMark .close then .ok ⟨(([], guards), rest), Nat.lt_succ_self _⟩
    else do
      let ⟨((first, guards₁), rest₁), h₁⟩ ← statement scope guards (t :: rest)
      let ⟨((others, guards₂), rest₂), h₂⟩ ← block scope guards₁ rest₁
      return ⟨((first ++ others, guards₂), rest₂), Nat.lt_trans h₂ h₁⟩
termination_by ts => 2 * ts.length + 1
decreasing_by
  · omega
  · dsimp only at h₁
    simp only [List.length_cons] at *
    omega

end

/-- Reads statements until the tokens end. -/
def statements (scope : List Declaration) (guards : List Guard) :
    (ts : Tokens) → Except SourceFault Program
  | [] => .ok []
  | t :: rest => do
    let ⟨((first, guards₁), rest₁), _⟩ ← statement scope guards (t :: rest)
    let others ← statements (scope ++ Program.declarations first) guards₁ rest₁
    return first ++ others
termination_by ts => ts.length
decreasing_by
  assumption

/-- The version that a number gives, as text. -/
def Token.version? : Token → Option String
  | float x => some (Decimal.Layout.plain.render x)
  | int n => some (Nat.repr n ++ ".0")
  | _ => none

/-- Whether a version is a version of the language. -/
def isSupported (version : String) : Bool :=
  version = "3" || version.toList.take 2 = ['3', '.']

/-- Reads the version header, if there is one, and gives the tokens after it. -/
def header : Tokens → Except SourceFault Tokens
  | [] => .ok []
  | t :: rest =>
    if t.token.isMark .version then
      match rest with
      | [] => .error (.unexpectedEnd .versionNumber)
      | number :: rest =>
        match number.token.version? with
        | none => .error (.invalidVersion number.token.render)
        | some version =>
          if isSupported version then (expectMark .semicolon rest).map (·.val.2)
          else .error (.invalidVersion version)
    else .ok (t :: rest)

/-- Reads a program from its tokens. -/
def parseTokens (ts : Tokens) : Except SourceFault Program := do
  statements [] [] (← header ts)

/-- Reads a program. A text with characters that belong to no token is refused for the first of
them. -/
def parse (source : String) : Except SourceFault Program := do
  let tokens ← (tokenize source).mapM fun piece ↦ piece.mapError .lexical
  parseTokens tokens

end Peephole.Source
