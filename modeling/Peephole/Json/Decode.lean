import Peephole.Json.Basic

/-!
# Taking JSON values apart

The conventions that all records and variants follow. A record is an object whose members are found
by name, or an array whose items are found by position; a member may be given once, and members with
other names are ignored. A variant is an object with one member, its name, or, if it has no content,
the name alone.
-/

set_option autoImplicit false
set_option relaxedAutoImplicit false

namespace Peephole.Json

/-- The values of the named members of a record; a missing one is `none`. -/
def fields? (names : List String) : Json → Option (List (Option Json))
  | object members => names.mapM fun name ↦
    match members.filter (·.1 = name) with
    | [] => some none
    | [(_, value)] => some (some value)
    | _ => none
  | array items =>
    if items.length ≤ names.length then
      some (items.map some ++ List.replicate (names.length - items.length) none)
    else none
  | _ => none

/-- The name of a variant with its content. -/
def variant? : Json → Option (String × Option Json)
  | string name => some (name, none)
  | object [(name, content)] => some (name, some content)
  | _ => none

/-- Whether the content of a variant is that of a variant without content. -/
def isVoid : Option Json → Bool
  | none => true
  | some null => true
  | some _ => false

def string? : Json → Option String
  | string s => some s
  | _ => none

def bool? : Json → Option Bool
  | bool b => some b
  | _ => none

/-- A number, whole or not. -/
def float? : Json → Option Float
  | whole n => some (if n < 0 then -(Float.ofNat n.natAbs) else Float.ofNat n.natAbs)
  | real x => some x
  | _ => none

/-- A natural number up to a bound. -/
def nat? (bound : Nat) : Json → Option Nat
  | whole n => if 0 ≤ n ∧ n ≤ bound then some n.toNat else none
  | _ => none

/-- A value that may be `null`. -/
def nullable? {α : Type} (decode : Json → Option α) : Json → Option (Option α)
  | null => some none
  | j => (decode j).map some

/-- An array of values. -/
def list? {α : Type} (decode : Json → Option α) : Json → Option (List α)
  | array items => items.mapM decode
  | _ => none

/-- A member that may be missing. -/
def orDefault {α : Type} (default : α) (decode : Json → Option α) : Option Json → Option α
  | none => some default
  | some j => decode j

/-- A member without which there is no record. -/
def required {α : Type} (decode : Json → Option α) : Option Json → Option α
  | none => none
  | some j => decode j

end Peephole.Json
