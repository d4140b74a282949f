/-!
# Files

What the program needs of a file system: reading and writing text files by path. The two operations
stand in a record, so that the same program runs on real files and on files held in memory.

The format of a program file is chosen by the extension of its name.
-/

set_option autoImplicit false
set_option relaxedAutoImplicit false

namespace Peephole.CommandLine

/-- Why a file cannot be read or written. -/
inductive FileFault where
  | notFound
  | notADirectory
  | isADirectory
  | nameTooLong
  | notText
  | other (reason : String)
deriving DecidableEq, Repr

def FileFault.message : FileFault → String
  | notFound => "No such file or directory (os error 2)"
  | notADirectory => "Not a directory (os error 20)"
  | isADirectory => "Is a directory (os error 21)"
  | nameTooLong => "File name too long (os error 36)"
  | notText => "stream did not contain valid UTF-8"
  | other reason => reason

/-- Whether there is something at a path that cannot be read. -/
def FileFault.isPresent : FileFault → Bool
  | notFound => false
  | notADirectory => false
  | nameTooLong => false
  | _ => true

/-- A way to read and write text files. -/
structure Files (m : Type → Type) where
  read : String → m (Except FileFault String)
  write : String → String → m (Except FileFault Unit)

/-- The names on the way to a file. -/
def pathParts (path : String) : List String :=
  (path.splitOn "/").filter fun part ↦ part ≠ "" && part ≠ "."

/-- The extension of the last name of a path: what follows its last dot, unless that dot is its first
character. -/
def extension? (path : String) : Option String := do
  let name ← (pathParts path).getLast?
  if name = ".." then none
  else
    let reversed := name.toList.reverse
    let extension := reversed.takeWhile (· ≠ '.')
    if reversed.length ≤ extension.length + 1 then none
    else return String.ofList extension.reverse

/-- The formats of program files. -/
inductive Format where
  | text
  | json
deriving DecidableEq, Repr

/-- The format of a file by its name. -/
def Format.ofPath (path : String) : Format :=
  if ((extension? path).getD "").toList.map Char.toLower = "json".toList then .json else .text

end Peephole.CommandLine
