import Peephole.Circuit.Integrity
import Peephole.Circuit.Order
import Peephole.Rule.Action
import Peephole.Settings

/-!
# The optimizer

`findMatch` looks for the first window to which a rule applies: wire by wire, on each wire from the
input to the output, and at each node rule by rule. `simplify` carries out the matches it finds, one
after the other, until there is none or the cap is reached; a development build checks the circuit
after each of them. `optimize` does this to a program.
-/

set_option autoImplicit false
set_option relaxedAutoImplicit false

namespace Peephole

/-- Why a program cannot be optimized. -/
inductive OptimizerFault where
  | rule (fault : RuleFault)
  | unknownFamily (name : String)
  | settings (fault : SettingsFault)

/-- The text of a fault of a rule. -/
def RuleFault.message : RuleFault → String
  | circuit fault => "IR error: " ++ fault.message
  | window rule fault => "Rule '" ++ rule.name ++ "' failed: " ++ fault.message

def OptimizerFault.message : OptimizerFault → String
  | rule fault => fault.message
  | unknownFamily name => "Unknown rule family '" ++ name ++ "'"
  | settings fault => "Invalid optimizer configuration: " ++ fault.message

/-- The account of a run. `tally` counts the uses of each rule, by name in alphabetical order, and
`capped` says that the run ended at the cap although some rule still applied. -/
structure Statistics where
  gatesBefore : Nat
  gatesAfter : Nat
  iterations : Nat
  tally : List (String × Nat)
  capped : Bool
deriving DecidableEq, Repr, Inhabited

namespace Statistics

/-- The account at the start of a run. -/
def start (gates : Nat) : Statistics :=
  ⟨gates, 0, 0, [], false⟩

def gatesRemoved (s : Statistics) : Nat :=
  s.gatesBefore - s.gatesAfter

/-- Counts one use of a name in an alphabetical tally. -/
def count (name : String) : List (String × Nat) → List (String × Nat)
  | [] => [(name, 1)]
  | (n, k) :: rest =>
    if n = name then (n, k + 1) :: rest
    else if name < n then (name, 1) :: (n, k) :: rest
    else (n, k) :: count name rest

/-- Enters one use of a rule. -/
def record (s : Statistics) (rule : Rule) : Statistics :=
  { s with iterations := s.iterations + 1, tally := count rule.name s.tally }

end Statistics

/-- A build of the optimizer. A development build checks the circuit after every match. -/
inductive Build where
  | development
  | release
deriving DecidableEq, Repr, Inhabited

/-- A rule with a window to which it applies. -/
structure Match where
  rule : Rule
  path : Path

/-- The first of the rules that applies at the start of a path. -/
def matchAt (rules : List Rule) (g : Circuit) (path : Path) : Except CircuitFault (Option Match) :=
  rules.findSomeM? fun rule ↦ do
    let window := path.take rule.depth
    return if ← rule.applies g window then some ⟨rule, window⟩ else none

/-- The first match on a wire. -/
def matchOn (rules : List Rule) (g : Circuit) (wire : Nat) :
    Except CircuitFault (Option Match) := do
  let path ← Path.full g wire
  path.suffixes.findSomeM? (matchAt rules g)

/-- The first match in a circuit. -/
def findMatch (rules : List Rule) (g : Circuit) : Except CircuitFault (Option Match) :=
  (List.range g.wires.length).findSomeM? (matchOn rules g)

/-- The check that a build makes after a match. -/
def Build.check : Build → Reduction Unit
  | development => Reduction.ask Circuit.verify
  | release => return ()

/-- Carries out a match and checks the result. -/
def Match.perform (build : Build) (m : Match) : Reduction Unit := do
  m.rule.perform m.path
  build.check

/-- Carries out matches until there is none, at most `cap` of them. -/
def simplifyLoop (build : Build) (rules : List Rule) :
    (cap : Nat) → Statistics → Reduction Statistics
  | cap, stats => do
    match ← Reduction.ask (findMatch rules) with
    | none => return stats
    | some m =>
      match cap with
      | 0 => return { stats with capped := true }
      | cap + 1 =>
        m.perform build
        simplifyLoop build rules cap (stats.record m.rule)

/-- Simplifies a circuit and gives the account of the run. -/
def simplify (build : Build) (rules : List Rule) (cap : Nat) : Reduction Statistics := do
  let stats ← simplifyLoop build rules cap (.start (← get).gateCount)
  return { stats with gatesAfter := (← get).gateCount }

/-- Carries out the instruction on a circuit. -/
def Instruction.run : Instruction → Edit Unit
  | declare d => discard (Circuit.declare d)
  | apply a => discard (Circuit.apply a)

/-- The circuit of a program. -/
def Circuit.ofProgram (p : Program) : Except CircuitFault Circuit :=
  match (p.forM Instruction.run : Edit Unit).run Circuit.empty with
  | .ok _ g => .ok g
  | .error fault _ => .error fault

/-- Simplifies the circuit of a program with given rules. -/
def Program.simplify (build : Build) (p : Program) (rules : List Rule) (cap : Nat) :
    Except RuleFault (Program × Statistics) := do
  let g ← (Circuit.ofProgram p).mapError .circuit
  match (Peephole.simplify build rules cap).run g with
  | .error fault _ => throw fault
  | .ok stats g =>
    let result ← g.toProgram.mapError .circuit
    return (result, stats)

/-- Optimizes a program under settings that make sense. -/
def optimize (build : Build) (settings : Settings) (p : Program) :
    Except OptimizerFault (Program × Statistics) := do
  settings.validate.mapError .settings
  (p.simplify build settings.rules settings.maxIterations).mapError .rule

end Peephole
