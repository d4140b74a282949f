import Peephole.Rule.Basic
import Peephole.Sorting
import Peephole.Text.Blank

/-!
# Sets of families

A `FamilySet` selects families of rules. It is written as a comma-separated list of names, in which
`all` stands for every family and `none` for nothing, and it can be packed into four bits.
`FamilySet.rules` lists the selected rules in the order in which they are tried: by depth, and
within one depth in the order of the families.
-/

set_option autoImplicit false
set_option relaxedAutoImplicit false

namespace Peephole

/-- A selection of families. -/
structure FamilySet where
  nullGate : Bool
  peepingControl : Bool
  hSandwich : Bool
  controlReversal : Bool
deriving DecidableEq, Repr, Inhabited

namespace FamilySet

/-- No family. -/
def empty : FamilySet :=
  ⟨false, false, false, false⟩

/-- Every family. -/
def all : FamilySet :=
  ⟨true, true, true, true⟩

/-- Whether a family is selected. -/
def has (s : FamilySet) : Family → Bool
  | .nullGate => s.nullGate
  | .peepingControl => s.peepingControl
  | .hSandwich => s.hSandwich
  | .controlReversal => s.controlReversal

/-- The selection of one family. -/
def only (f : Family) : FamilySet :=
  ⟨f = .nullGate, f = .peepingControl, f = .hSandwich, f = .controlReversal⟩

def union (s t : FamilySet) : FamilySet :=
  ⟨s.nullGate || t.nullGate, s.peepingControl || t.peepingControl, s.hSandwich || t.hSandwich,
    s.controlReversal || t.controlReversal⟩

def inter (s t : FamilySet) : FamilySet :=
  ⟨s.nullGate && t.nullGate, s.peepingControl && t.peepingControl, s.hSandwich && t.hSandwich,
    s.controlReversal && t.controlReversal⟩

/-- The selected families in order. -/
def toList (s : FamilySet) : List Family :=
  Family.all.filter s.has

/-- Whether every family of `t` is in `s`. -/
def includes (s t : FamilySet) : Bool :=
  t.toList.all s.has

/-- The four bits of a selection, the first family lowest. -/
def bits (s : FamilySet) : Nat :=
  s.nullGate.toNat + 2 * s.peepingControl.toNat + 4 * s.hSandwich.toNat +
    8 * s.controlReversal.toNat

/-- The selection in the four lowest bits of a number. -/
def ofBits (n : Nat) : FamilySet :=
  ⟨n.testBit 0, n.testBit 1, n.testBit 2, n.testBit 3⟩

/-- The text of a selection. -/
def render (s : FamilySet) : String :=
  if s = all then "all"
  else if s = empty then "none"
  else ",".intercalate (s.toList.map Family.name)

/-- The selection with a name, or the name if there is none. -/
def named (name : String) : Except String FamilySet :=
  if name = "all" then .ok all
  else if name = "none" then .ok empty
  else
    match Family.all.find? (·.name = name) with
    | some f => .ok (only f)
    | none => .error name

/-- Reads a comma-separated list of names, without regard to case, to white space around the names
and to empty names. The error is the first name that is unknown. -/
def parse (text : String) : Except String FamilySet :=
  let names := (Text.splitOn ',' text.toList).map Text.trim |>.filter (!·.isEmpty)
  names.foldlM (fun set name ↦ do
    return set.union (← named (String.ofList (name.map Char.toLower)))) empty

/-- The selected rules in the order in which they are tried. -/
def rules (s : FamilySet) : List Rule :=
  sortBy (fun a b ↦ a.depth ≤ b.depth) (s.toList.flatMap Family.rules)

end FamilySet

end Peephole
