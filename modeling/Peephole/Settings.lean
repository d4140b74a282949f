import Peephole.Rule.FamilySet

/-!
# Settings of the optimizer

`Settings` says which families of rules are used, how deep the windows may be and how many
simplifications are made at most.
-/

set_option autoImplicit false
set_option relaxedAutoImplicit false

namespace Peephole

/-- What the optimizer may do. -/
structure Settings where
  families : FamilySet
  maxDepth : Option Nat
  maxIterations : Nat
deriving DecidableEq, Repr

/-- A setting that makes no sense. -/
inductive SettingsFault where
  | noIterations
  | noDepth
deriving DecidableEq, Repr

def SettingsFault.message : SettingsFault → String
  | noIterations => "max_iterations must be at least 1"
  | noDepth => "max_depth must be at least 1"

namespace Settings

/-- All families, windows of any depth, and ten thousand simplifications. -/
def standard : Settings where
  families := .all
  maxDepth := none
  maxIterations := 10000

instance : Inhabited Settings := ⟨standard⟩

/-- Checks that the limits are positive, the number of simplifications first. -/
def validate (s : Settings) : Except SettingsFault Unit :=
  if s.maxIterations = 0 then .error .noIterations
  else if s.maxDepth = some 0 then .error .noDepth
  else .ok ()

/-- The rules that are used, in the order in which they are tried. -/
def rules (s : Settings) : List Rule :=
  s.families.rules.filter fun r ↦ s.maxDepth.all (r.depth ≤ ·)

end Settings

end Peephole
