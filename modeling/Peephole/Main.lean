import Peephole.CommandLine.Run

/-!
# The program

Runs a command on the files of the system.
-/

set_option autoImplicit false
set_option relaxedAutoImplicit false

namespace Peephole.CommandLine

/-- The fault that an error of the system stands for. -/
def FileFault.ofError : IO.Error → FileFault
  | .noFileOrDirectory .. => .notFound
  | .inappropriateType _ 20 _ => .notADirectory
  | .inappropriateType .. => .isADirectory
  | .invalidArgument _ 36 _ => .nameTooLong
  | .userError _ => .notText
  | e => .other e.toString

/-- The files of the system. -/
def systemFiles : Files IO where
  read path := do
    try return .ok (← IO.FS.readFile path)
    catch e => return .error (.ofError e)
  write path text := do
    try
      IO.FS.writeFile path text
      return .ok ()
    catch e => return .error (.ofError e)

end Peephole.CommandLine

open Peephole.CommandLine in
def main (arguments : List String) : IO UInt32 := do
  let report ← run .development systemFiles arguments
  IO.print report.output
  IO.eprint report.errors
  return report.exitCode.toUInt32
