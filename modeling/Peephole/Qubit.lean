/-!
# Qubits and their declarations

A `Declaration` introduces a single qubit or a register of a given size. A `Qubit` refers to a
declared single qubit by its name, or to a slot of a register by name and index.
-/

set_option autoImplicit false
set_option relaxedAutoImplicit false

namespace Peephole

/-- A reference to one qubit; a slot of a register has an index. -/
structure Qubit where
  register : String
  index : Option Nat
deriving DecidableEq, Inhabited

/-- The text of a reference. -/
def Qubit.render (q : Qubit) : String :=
  match q.index with
  | some i => q.register ++ "[" ++ Nat.repr i ++ "]"
  | none => q.register

/-- The introduction of a single qubit, or of a register if there is a size. -/
structure Declaration where
  name : String
  size : Option Nat
deriving DecidableEq, Inhabited

namespace Declaration

/-- The qubits introduced, in order. -/
def qubits (d : Declaration) : List Qubit :=
  match d.size with
  | some n => (List.range n).map fun i ↦ ⟨d.name, some i⟩
  | none => [⟨d.name, none⟩]

/-- The number of qubits introduced. -/
def width (d : Declaration) : Nat :=
  d.size.getD 1

/-- The text of a declaration, without the closing semicolon. -/
def render (d : Declaration) : String :=
  match d.size with
  | some n => "qubit[" ++ Nat.repr n ++ "] " ++ d.name
  | none => "qubit " ++ d.name

end Declaration

end Peephole
