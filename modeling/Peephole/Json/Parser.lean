import Peephole.Json.Token

/-!
# Reading JSON

`Json.parse?` reads a text that holds one value. Arrays and objects that are nested deeper than
`Json.maxDepth` are checked for their form (`skipLength?`) and are unreadable; so is an object in
which a name has no content.
-/

set_option autoImplicit false
set_option relaxedAutoImplicit false

namespace Peephole.Json

/-- How deep arrays and objects are read. -/
def maxDepth : Nat :=
  127

/-- A value with the tokens left after it, fewer than there were. -/
abbrev Parsed (α : Type) (ts : List Token) := { r : α × List Token // r.2.length < ts.length }

/-- What a value that is being skipped lies in. -/
inductive Frame where
  | array
  | object
deriving DecidableEq

/-- What must come next in a value that is being skipped. -/
inductive Awaited where
  | value
  /-- A value, or the end of an empty array. -/
  | firstItem
  | name
  /-- A name, or the end of an empty object. -/
  | firstName
  | colon
  /-- A comma, or the end of the innermost array or object. -/
  | separator
deriving DecidableEq

/-- What comes after a token within some arrays and objects, the innermost one first; `none` if the
token is out of place. -/
def advance? : List Frame → Awaited → Token → Option (List Frame × Awaited)
  | frames, .value, .plain _ | frames, .firstItem, .plain _ => some (frames, .separator)
  | frames, .value, .string _ | frames, .firstItem, .string _ => some (frames, .separator)
  | frames, .value, .leftBracket | frames, .firstItem, .leftBracket =>
    some (.array :: frames, .firstItem)
  | frames, .value, .leftBrace | frames, .firstItem, .leftBrace =>
    some (.object :: frames, .firstName)
  | frames, .name, .string _ | frames, .firstName, .string _ => some (frames, .colon)
  | frames, .colon, .colon => some (frames, .value)
  | .array :: frames, .separator, .comma => some (.array :: frames, .value)
  | .object :: frames, .separator, .comma => some (.object :: frames, .name)
  | .array :: frames, .separator, .rightBracket | .array :: frames, .firstItem, .rightBracket =>
    some (frames, .separator)
  | .object :: frames, .separator, .rightBrace | .object :: frames, .firstName, .rightBrace =>
    some (frames, .separator)
  | _, _, _ => none

/-- The number of tokens up to the end of the outermost array or object, added to `used`. -/
def skipLength? (frames : List Frame) (awaited : Awaited) (used : Nat) : List Token → Option Nat
  | [] => none
  | t :: rest =>
    match advance? frames awaited t with
    | none => none
    | some ([], _) => some (used + 1)
    | some (frames, awaited) => skipLength? frames awaited (used + 1) rest

/-- Skips an array or object after its opening token `t`. -/
def skip? (frame : Frame) (awaited : Awaited) (t : Token) (rest : List Token) :
    Option (Parsed Json (t :: rest)) :=
  (skipLength? [frame] awaited 0 rest).map fun n ↦
    ⟨(.unreadable, rest.drop n), by simp only [List.length_drop, List.length_cons]; omega⟩

/-- The object with some members. -/
def ofMembers (members : List (Option String × Json)) : Json :=
  match members.mapM fun (name, value) ↦ name.map fun name ↦ (name, value) with
  | some members => .object members
  | none => .unreadable

mutual

/-- Reads a value. Arrays and objects nested more than `depth` deep in it are unreadable. -/
def value? (depth : Nat) : (ts : List Token) → Option (Parsed Json ts)
  | .plain j :: rest => some ⟨(j, rest), Nat.lt_succ_self _⟩
  | .string content :: rest =>
    some ⟨(content.elim .unreadable .string, rest), Nat.lt_succ_self _⟩
  | .leftBracket :: .rightBracket :: rest =>
    some ⟨(if depth = 0 then .unreadable else .array [], rest),
      by simp only [List.length_cons]; omega⟩
  | .leftBracket :: rest =>
    if depth = 0 then skip? .array .firstItem .leftBracket rest
    else do
      let ⟨(items, rest'), h⟩ ← items? (depth - 1) rest
      return ⟨(.array items, rest'), Nat.lt_succ_of_lt h⟩
  | .leftBrace :: .rightBrace :: rest =>
    some ⟨(if depth = 0 then .unreadable else .object [], rest),
      by simp only [List.length_cons]; omega⟩
  | .leftBrace :: rest =>
    if depth = 0 then skip? .object .firstName .leftBrace rest
    else do
      let ⟨(members, rest'), h⟩ ← members? (depth - 1) rest
      return ⟨(ofMembers members, rest'), Nat.lt_succ_of_lt h⟩
  | _ => none
termination_by ts => 2 * ts.length

/-- Reads the items of an array and the bracket that closes it. -/
def items? (depth : Nat) (ts : List Token) : Option (Parsed (List Json) ts) := do
  let ⟨(item, rest), h⟩ ← value? depth ts
  match rest, h with
  | .rightBracket :: rest, h => return ⟨([item], rest), Nat.lt_of_succ_lt h⟩
  | .comma :: rest, h =>
    let ⟨(items, rest'), h'⟩ ← items? depth rest
    return ⟨(item :: items, rest'), Nat.lt_trans h' (Nat.lt_of_succ_lt h)⟩
  | _, _ => none
termination_by 2 * ts.length + 1
decreasing_by
  · omega
  · simp only [List.length_cons] at h; omega

/-- Reads the members of an object and the brace that closes it. -/
def members? (depth : Nat) : (ts : List Token) → Option (Parsed (List (Option String × Json)) ts)
  | .string name :: .colon :: ts => do
    let ⟨(value, rest), h⟩ ← value? depth ts
    match rest, h with
    | .rightBrace :: rest, h =>
      return ⟨([(name, value)], rest), by simp only [List.length_cons] at *; omega⟩
    | .comma :: rest, h =>
      let ⟨(members, rest'), h'⟩ ← members? depth rest
      return ⟨((name, value) :: members, rest'), by simp only [List.length_cons] at *; omega⟩
    | _, _ => none
  | _ => none
termination_by ts => 2 * ts.length
decreasing_by
  · simp only [List.length_cons]; omega
  · simp only [List.length_cons] at *; omega

end

/-- The value that a text holds. -/
def parse? (text : String) : Option Json := do
  let ⟨(j, rest), _⟩ ← value? maxDepth (← tokens? text.toList)
  if rest.isEmpty then some j else none

end Peephole.Json
