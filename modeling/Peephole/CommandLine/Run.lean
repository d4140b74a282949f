import Peephole.CommandLine.Arguments
import Peephole.CommandLine.Files
import Peephole.Optimizer
import Peephole.Program.Canonical
import Peephole.Program.Interchange
import Peephole.Source.Emit
import Peephole.Source.Statement

/-!
# Running commands

`Command.run` carries out a command with a given way to reach files, and gives what it prints and
its exit code. `optimize` works in this order: settings, input file, optimization, output; the first
step that fails ends the run.
-/

set_option autoImplicit false
set_option relaxedAutoImplicit false

namespace Peephole.CommandLine

/-- What a run leaves behind, files apart. -/
structure Report where
  exitCode : Nat
  output : String
  errors : String
deriving DecidableEq, Repr, Inhabited

/-- Why a run of `optimize` fails. -/
inductive Failure where
  | unreadableConfig (path : String) (fault : FileFault)
  | invalidConfig (path : String)
  | optimizer (fault : OptimizerFault)
  | missingInput (path : String)
  | unreadableInput (path : String) (fault : FileFault)
  | invalidSource (path : String) (fault : Source.SourceFault)
  | invalidJson (path : String)
  | optimization (path : String) (fault : OptimizerFault)
  | unwritable (path : String) (fault : FileFault)

/-- The text of a fault with its causes. A fault of a circuit is the cause of its own report, and is
named twice. -/
def causes (fault : OptimizerFault) : String :=
  match fault with
  | .rule (.circuit inner) => fault.message ++ ": " ++ inner.message
  | _ => fault.message

def Failure.message : Failure → String
  | unreadableConfig path fault => "Failed to read config: " ++ path ++ ": " ++ fault.message
  | invalidConfig path => "Invalid optimizer config: " ++ path
  | optimizer fault => causes fault
  | missingInput path => "File not found: " ++ path
  | unreadableInput path fault => "Failed to read file: " ++ path ++ ": " ++ fault.message
  | invalidSource path fault => "Failed to parse " ++ path ++ ": " ++ fault.message
  | invalidJson path => "Failed to read JSON program from " ++ path
  | optimization path fault => "Failed to optimize " ++ path ++ ": " ++ causes fault
  | unwritable path fault => "Failed to write file: " ++ path ++ ": " ++ fault.message

/-- A text filled up with blanks to a width. -/
def padRight (width : Nat) (text : String) : String :=
  text ++ String.ofList (List.replicate (width - text.length) ' ')

/-- The account of a run, line by line. -/
def statisticsText (s : Statistics) : String :=
  let rows := s.tally.map fun (rule, count) ↦
    "    " ++ padRight 24 rule ++ " " ++ Nat.repr count ++ "\n"
  "Optimization statistics\n" ++
    "  Gates before:  " ++ Nat.repr s.gatesBefore ++ "\n" ++
    "  Gates after:   " ++ Nat.repr s.gatesAfter ++ "\n" ++
    "  Removed:       " ++ Nat.repr s.gatesRemoved ++ "\n" ++
    "  Applications:  " ++ Nat.repr s.iterations ++ "\n" ++ String.join rows ++
    (if s.capped then "  ! stopped at the iteration cap before reaching a fixed point\n" else "")

/-- What a family of rules does. -/
def describe : Family → String
  | .nullGate => "removes adjacent identical self-inverse gates (h, x, y, z)"
  | .peepingControl => "resolves guards whose qubit is in a known basis state"
  | .hSandwich => "rewrites h x h as z and h z h as x"
  | .controlReversal => "swaps control and target of a cx wrapped in h gates"

/-- The list of the families of rules. -/
def rulesText : String :=
  let rows := Family.all.map fun f ↦
    "  " ++ padRight 18 f.name ++ " depth " ++ Nat.repr f.depth ++ "  " ++ describe f ++ "\n"
  "Rule families:\n" ++ String.join rows ++
    "\nSelect with --rules null-gate,h-sandwich or --rules all.\n"

/-- The version of the program. -/
def versionNumber : String :=
  "0.3.0"

/-- The description of the program. -/
def versionText : String :=
  "qrew v" ++ versionNumber ++ " - peephole rewriting for guarded quantum circuits\n\n" ++
    "Components:\n" ++
    "  qrew-ir     Instruction model and per-qubit wire graph\n" ++
    "  qrew-opt    Rewrite rules and fixed-point driver\n" ++
    "  qrew-qasm3  OpenQASM 3 subset reader and writer\n" ++
    "  qrew-cli    Command-line interface\n\n" ++
    "Repository: https://github.com/qrew-dev/qrew\n"

/-- Reads a program in the format of its file. -/
def readProgram (path source : String) : Except Failure Program :=
  match Format.ofPath path with
  | .text => (Source.parse source).mapError (.invalidSource path)
  | .json =>
    match Program.parseJson? source with
    | some p => .ok p
    | none => .error (.invalidJson path)

/-- The text of a program in a format. -/
def programText (p : Program) : Format → String
  | .text => p.emit
  | .json => p.toJson.pretty ++ "\n"

/-- Settings with the changes that the options ask for. -/
def OptimizeOptions.override (options : OptimizeOptions) (settings : Settings) :
    Except Failure Settings := do
  let families ← match options.rules with
    | none => .ok settings.families
    | some text => (FamilySet.parse text).mapError fun name ↦ .optimizer (.unknownFamily name)
  return {
    families
    maxDepth := options.maxDepth.or settings.maxDepth
    maxIterations := options.maxIterations.getD settings.maxIterations }

section

variable {m : Type → Type} [Monad m]

/-- The settings of a run, from the configuration file and the options. -/
def OptimizeOptions.settings (options : OptimizeOptions) (files : Files m) :
    ExceptT Failure m Settings := do
  let base ← match options.config with
    | none => pure Settings.standard
    | some path =>
      match ← files.read path with
      | .error fault => throw (.unreadableConfig path fault)
      | .ok text =>
        match Settings.parseYaml? text with
        | some settings => pure settings
        | none => throw (.invalidConfig path)
  let settings ← ExceptT.mk (pure (options.override base))
  match settings.validate with
  | .ok _ => return settings
  | .error fault => throw (.optimizer (.settings fault))

/-- The program in the input file. -/
def OptimizeOptions.program (options : OptimizeOptions) (files : Files m) :
    ExceptT Failure m Program := do
  match ← files.read options.input with
  | .ok source => ExceptT.mk (pure (readProgram options.input source))
  | .error fault =>
    if fault.isPresent then throw (.unreadableInput options.input fault)
    else throw (.missingInput options.input)

/-- Optimizes the input file. The result goes to the output file, or is printed. -/
def OptimizeOptions.run (build : Build) (options : OptimizeOptions) (files : Files m) :
    ExceptT Failure m Report := do
  let settings ← options.settings files
  let program ← options.program files
  match optimize build settings program with
  | .error fault => throw (.optimization options.input fault)
  | .ok (optimized, stats) =>
    let result := if options.keepNames then optimized else optimized.canonical
    let account := if options.stats then statisticsText stats else ""
    match options.output with
    | none => return ⟨0, programText result .text, account⟩
    | some path =>
      match ← files.write path (programText result (Format.ofPath path)) with
      | .error fault => throw (.unwritable path fault)
      | .ok _ => return ⟨0, "", "✓ " ++ options.input ++ " -> " ++ path ++ "\n" ++ account⟩

/-- Carries out a command. -/
def Command.run (build : Build) (files : Files m) : Command → m Report
  | optimize options => do
    match ← options.run build files with
    | .ok report => return report
    | .error failure => return ⟨1, "", "Error: " ++ failure.message ++ "\n"⟩
  | rules => return ⟨0, rulesText, ""⟩
  | version => return ⟨0, versionText, ""⟩
  | versionNumber => return ⟨0, "qrew " ++ CommandLine.versionNumber ++ "\n", ""⟩

/-- Carries out what the arguments ask for; arguments that cannot be understood give the exit code
two. -/
def run (build : Build) (files : Files m) (arguments : List String) : m Report :=
  match Command.parse? arguments with
  | some command => command.run build files
  | none => return ⟨2, "", "Error: the arguments cannot be understood\n"⟩

end

end Peephole.CommandLine
