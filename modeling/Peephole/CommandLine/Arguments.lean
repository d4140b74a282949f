import Peephole.Settings.Interchange

/-!
# Arguments

`Command.parse?` reads the arguments of the program. An option with a value is written `--input FILE`,
`--input=FILE`, `-i FILE`, `-iFILE` or `-i=FILE`, and short options without a value can share a dash.
Every option but `-v` may be given once. Arguments that cannot be understood are refused without a
closer reason.
-/

set_option autoImplicit false
set_option relaxedAutoImplicit false

namespace Peephole.CommandLine

/-- What `optimize` is asked to do. -/
structure OptimizeOptions where
  input : String
  output : Option String
  rules : Option String
  config : Option String
  maxDepth : Option Nat
  maxIterations : Option Nat
  keepNames : Bool
  stats : Bool
deriving DecidableEq, Repr

/-- What the program is asked to do. -/
inductive Command where
  | optimize (options : OptimizeOptions)
  | rules
  | version
  /-- The bare version number. -/
  | versionNumber
deriving DecidableEq, Repr

/-- The options of `optimize`. -/
inductive Switch where
  | input
  | output
  | rules
  | config
  | maxDepth
  | maxIterations
  | keepNames
  | stats
  | verbose
deriving DecidableEq, Repr

namespace Switch

/-- Whether an option has a value. -/
def takesValue : Switch → Bool
  | keepNames => false
  | stats => false
  | verbose => false
  | _ => true

/-- The option with a long name. -/
def ofLong? : String → Option Switch
  | "input" => some input
  | "output" => some output
  | "rules" => some rules
  | "config" => some config
  | "max-depth" => some maxDepth
  | "max-iterations" => some maxIterations
  | "keep-names" => some keepNames
  | "stats" => some stats
  | "verbose" => some verbose
  | _ => none

/-- The option with a letter. -/
def ofShort? : Char → Option Switch
  | 'i' => some input
  | 'o' => some output
  | 'r' => some rules
  | 'c' => some config
  | 'v' => some verbose
  | _ => none

end Switch

/-- An option as given, with its value. -/
structure Given where
  switch : Switch
  value : Option String
deriving DecidableEq, Repr

/-- Whether an argument is taken for an option. -/
def isOption (argument : String) : Bool :=
  match argument.toList with
  | '-' :: _ :: _ => true
  | _ => false

/-- Gives an option its value: the text attached to it, or else the next argument. The further
arguments are given back. -/
def withValue? (switch : Switch) (attached : Option String) (rest : List String) :
    Option (Given × List String) :=
  match attached, rest with
  | some value, rest => some (⟨switch, some value⟩, rest)
  | none, value :: rest => if isOption value then none else some (⟨switch, some value⟩, rest)
  | none, [] => none

/-- Reads the letters after a single dash. A letter with a value takes the rest of the letters, an
equals sign in front of them dropped, or else the next argument. -/
def shorts? (rest : List String) : List Char → Option (List Given × List String)
  | [] => some ([], rest)
  | c :: cs =>
    match Switch.ofShort? c with
    | none => none
    | some switch =>
      if switch.takesValue then
        let attached := match cs with
          | [] => none
          | '=' :: value => some (String.ofList value)
          | value => some (String.ofList value)
        (withValue? switch attached rest).map fun (given, rest) ↦ ([given], rest)
      else (shorts? rest cs).map fun (others, rest) ↦ (⟨switch, none⟩ :: others, rest)

/-- Reads a long option, whose name and value may be divided by an equals sign. -/
def long? (text : List Char) (rest : List String) : Option (Given × List String) := do
  let name := text.takeWhile (· ≠ '=')
  let attached := match text.drop name.length with
    | [] => none
    | _ :: value => some (String.ofList value)
  let switch ← Switch.ofLong? (String.ofList name)
  if switch.takesValue then withValue? switch attached rest
  else if attached.isNone then some (⟨switch, none⟩, rest)
  else none

/-- Reads the options at the start of an argument and gives them with the further arguments. -/
def options? (argument : String) (rest : List String) : Option (List Given × List String) :=
  match argument.toList with
  | '-' :: '-' :: text => (long? text rest).map fun (given, rest) ↦ ([given], rest)
  | '-' :: letters => shorts? rest letters
  | _ => none

/-- Reads all arguments as options, at most `count` of them. A double dash ends the options, and
nothing may follow it. -/
def givens? : (count : Nat) → List String → Option (List Given)
  | _, [] => some []
  | 0, _ :: _ => none
  | count + 1, argument :: rest =>
    if argument = "--" then if rest.isEmpty then some [] else none
    else if isOption argument then do
      let (first, rest) ← options? argument rest
      return first ++ (← givens? count rest)
    else none

/-- The value of an option that is given at most once. -/
def single? (givens : List Given) (switch : Switch) : Option (Option Given) :=
  match givens.filter (·.switch = switch) with
  | [] => some none
  | [given] => some (some given)
  | _ => none

/-- The text value of an option. -/
def text? (givens : List Given) (switch : Switch) : Option (Option String) :=
  (single? givens switch).map fun given ↦ given.bind Given.value

/-- The value of decimal digits with an optional plus sign, up to the largest limit. -/
def limit? (text : String) : Option Nat :=
  let digits := match text.toList with
    | '+' :: rest => rest
    | cs => cs
  (Text.number? 10 digits).filter (· ≤ Settings.maxLimit)

/-- The number value of an option. -/
def number? (givens : List Given) (switch : Switch) : Option (Option Nat) := do
  match ← text? givens switch with
  | none => return none
  | some text => (limit? text).map some

/-- Whether an option without a value is given. -/
def flag? (givens : List Given) (switch : Switch) : Option Bool :=
  (single? givens switch).map Option.isSome

/-- The options of `optimize`. There must be an input. -/
def OptimizeOptions.ofGivens? (givens : List Given) : Option OptimizeOptions := do
  let given ← text? givens .input
  let input ← given
  return {
    input
    output := ← text? givens .output
    rules := ← text? givens .rules
    config := ← text? givens .config
    maxDepth := ← number? givens .maxDepth
    maxIterations := ← number? givens .maxIterations
    keepNames := ← flag? givens .keepNames
    stats := ← flag? givens .stats }

/-- The arguments of a command by name. Commands other than `optimize` know `-v` only. -/
def command? (name : String) (arguments : List String) : Option Command := do
  let bare ← match name with
    | "optimize" => some false
    | "rules" => some true
    | "version" => some true
    | _ => none
  let givens ← givens? arguments.length arguments
  if bare then
    if givens.all (·.switch = .verbose) then
      return if name = "rules" then .rules else .version
    else none
  else (OptimizeOptions.ofGivens? givens).map .optimize

/-- Whether the letters after a dash are those of `-v`, up to a `V` that asks for the version
number. -/
def asksVersion : List Char → Bool
  | 'V' :: _ => true
  | 'v' :: rest => asksVersion rest
  | _ => false

/-- Reads the arguments of the program: `-v` in front of a command, or a question for the version
number. -/
def Command.parse? : List String → Option Command
  | [] => none
  | argument :: rest =>
    match argument.toList with
    | '-' :: '-' :: text =>
      if text = "version".toList then some .versionNumber
      else if text = "verbose".toList then Command.parse? rest
      else none
    | '-' :: letters =>
      if asksVersion letters then some .versionNumber
      else if !letters.isEmpty && letters.all (· = 'v') then Command.parse? rest
      else none
    | _ => command? argument rest

end Peephole.CommandLine
