import Peephole.Program.Basic

/-!
# Writing programs

`Program.emit` writes one line for each instruction. The guards of a gate become modifiers, the
negated ones first, and their qubits the first operands.
-/

set_option autoImplicit false
set_option relaxedAutoImplicit false

namespace Peephole

/-- A modifier for a number of guards, or nothing if there are none. -/
def renderModifier (keyword : String) (count : Nat) : String :=
  if count = 0 then "" else keyword ++ "(" ++ Nat.repr count ++ ") @ "

/-- The line of a gate application, with its semicolon. -/
def Application.emit (a : Application) : String :=
  let negated := a.guards.filter (·.negated)
  let plain := a.guards.filter (!·.negated)
  let operands := negated.map Guard.qubit ++ plain.map Guard.qubit ++ a.targets
  renderModifier "negctrl" negated.length ++ renderModifier "ctrl" plain.length ++
    a.gate.render ++ " " ++ ", ".intercalate (operands.map Qubit.render) ++ ";"

/-- The line of an instruction, with its semicolon. -/
def Instruction.emit : Instruction → String
  | declare d => d.render ++ ";"
  | apply a => a.emit

/-- The text of a program. -/
def Program.emit (p : Program) : String :=
  String.join (p.map fun i ↦ i.emit ++ "\n")

/-- The text of a program after a version header. -/
def Program.emitWithHeader (p : Program) : String :=
  "OPENQASM 3.0;\n" ++ p.emit

end Peephole
