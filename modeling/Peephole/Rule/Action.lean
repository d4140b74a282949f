import Peephole.Rule.Cancel
import Peephole.Rule.Peep
import Peephole.Rule.Reverse
import Peephole.Rule.Sandwich

/-!
# What the rules do

`Rule.applies` tests a rule on a window and `Rule.perform` carries it out.
-/

set_option autoImplicit false
set_option relaxedAutoImplicit false

namespace Peephole.Rule

/-- Whether a rule applies to a window. -/
def applies : Rule → Circuit → Path → Except CircuitFault Bool
  | cancel gate => cancels gate
  | peep => peeps
  | sandwich middle _ => sandwiches middle
  | reverse => reverses

/-- Carries out a rule on a window. -/
def perform : Rule → Path → Reduction Unit
  | cancel gate => performCancel gate
  | peep => performPeep
  | sandwich middle replacement => performSandwich middle replacement
  | reverse => performReverse

end Peephole.Rule
