import Peephole.Program.Basic

/-!
# Canonical names

`Program.canonical` renames the declared names of a program to `id0`, `id1`, … in the order of their
declarations, so that two programs that differ only in their names get the same text. A name that
is declared twice takes the number of its last declaration, and a name that is not declared stays.
-/

set_option autoImplicit false
set_option relaxedAutoImplicit false

namespace Peephole

/-- The position of the last occurrence of `name`, counted from `start`. -/
def lastPosition (name : String) : (names : List String) → (start : Nat) → Option Nat
  | [], _ => none
  | n :: rest, i =>
    match lastPosition name rest (i + 1) with
    | some k => some k
    | none => if n = name then some i else none

/-- The canonical form of a name, given the declared names in order. -/
def canonicalName (declared : List String) (name : String) : String :=
  match lastPosition name declared 0 with
  | some k => "id" ++ Nat.repr k
  | none => name

/-- A program with every name replaced. -/
def Instruction.rename (f : String → String) : Instruction → Instruction
  | declare d => declare { d with name := f d.name }
  | apply a =>
    let renameQubit (q : Qubit) : Qubit := { q with register := f q.register }
    apply { a with
      targets := a.targets.map renameQubit
      guards := a.guards.map fun c ↦ { c with qubit := renameQubit c.qubit } }

/-- A program with its declared names numbered in order of declaration. -/
def Program.canonical (p : Program) : Program :=
  List.map (Instruction.rename (canonicalName (p.declarations.map Declaration.name))) p

end Peephole
