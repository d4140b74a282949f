import Peephole.CommandLine.Files

/-!
# Files held in memory

A `Disk` is a tree of folders and text files with a working folder in it. A path is followed name by
name: every name but the last must be that of a folder, a dot stays where it is, two dots lead to the
folder around, and a path with a slash at its end asks for a folder. `Disk.read` and `Disk.write` say
what can be read and written that way, and for what reason something cannot.
-/

set_option autoImplicit false
set_option relaxedAutoImplicit false

namespace Peephole.CommandLine

/-- Folders and text files, by the names on the way to them from the root. -/
structure Disk where
  files : List (List String × String)
deriving DecidableEq, Repr, Inhabited

/-- What is found at a place on a disk. -/
inductive Entry where
  | folder
  | file (text : String)
  /-- The file that is always empty. -/
  | null
  | missing
deriving DecidableEq, Repr

namespace Disk

/-- The folder in which paths begin. -/
def workingFolder : List String :=
  ["tmp", "work"]

/-- The folders that are always there. -/
def standingFolders : List (List String) :=
  [] :: workingFolder ::
    ["bin", "boot", "dev", "etc", "home", "lib", "media", "mnt", "opt", "proc", "root", "run", "sbin",
      "srv", "sys", "tmp", "usr", "var"].map ([·])

/-- The place of the file that is always empty. -/
def nullFile : List String :=
  ["dev", "null"]

/-- The longest name, in bytes. -/
def maxName : Nat :=
  255

/-- The longest path, in bytes. -/
def maxPath : Nat :=
  4095

/-- What is found at a place. Every place on the way to a file is a folder. -/
def entry (disk : Disk) (place : List String) : Entry :=
  match disk.files.lookup place with
  | some text => .file text
  | none =>
    if place = nullFile then .null
    else if standingFolders.contains place || disk.files.any (fun file ↦ place.isPrefixOf file.1) then
      .folder
    else .missing

/-- The place of a name in a folder. -/
def child (folder : List String) (name : String) : Except FileFault (List String) :=
  if name = "." then .ok folder
  else if name = ".." then .ok folder.dropLast
  else if maxName < name.utf8ByteSize then .error .nameTooLong
  else .ok (folder ++ [name])

/-- The folder to which names lead from a folder. -/
def descend (disk : Disk) (folder : List String) : List String → Except FileFault (List String)
  | [] => .ok folder
  | name :: names => do
    let place ← child folder name
    match disk.entry place with
    | .folder => descend disk place names
    | .missing => throw .notFound
    | _ => throw .notADirectory

/-- A path taken apart: the folder in which its last name is looked up, and that name. The root has
no name. -/
structure Target where
  folder : List String
  name : Option String
  /-- Whether the path asks for a folder. -/
  asksFolder : Bool

/-- Follows a path up to its last name. -/
def follow (disk : Disk) (path : String) : Except FileFault Target := do
  if path.isEmpty then throw .notFound
  if maxPath < path.utf8ByteSize then throw .nameTooLong
  let names := (path.splitOn "/").filter (· ≠ "")
  let start := if path.startsWith "/" then [] else workingFolder
  return ⟨← disk.descend start names.dropLast, names.getLast?, path.endsWith "/"⟩

/-- The text of the file at a path. -/
def read (disk : Disk) (path : String) : Except FileFault String := do
  let target ← disk.follow path
  let place ← match target.name with
    | some name => child target.folder name
    | none => .ok target.folder
  match disk.entry place with
  | .folder => throw .isADirectory
  | .missing => throw .notFound
  | .null => if target.asksFolder then throw .notADirectory else return ""
  | .file text => if target.asksFolder then throw .notADirectory else return text

/-- The text of the file at a path, if there is one. -/
def get? (disk : Disk) (path : String) : Option String :=
  (disk.read path).toOption

/-- Puts a text into the file at a path, which is made if it is missing. -/
def write (disk : Disk) (path text : String) : Except FileFault Disk := do
  let target ← disk.follow path
  match target.name with
  | none => throw .isADirectory
  | some name =>
    if target.asksFolder then throw .isADirectory
    let place ← child target.folder name
    match disk.entry place with
    | .folder => throw .isADirectory
    | .null => return disk
    | _ => return ⟨(place, text) :: disk.files.filter (·.1 ≠ place)⟩

/-- The disk with some files in its working folder. -/
def ofList (files : List (String × String)) : Disk :=
  ⟨files.map fun (path, text) ↦ (workingFolder ++ pathParts path, text)⟩

/-- Files on a disk in memory. -/
def access : Files (StateM Disk) where
  read path := do return (← get).read path
  write path text := do
    match (← get).write path text with
    | .ok disk =>
      set disk
      return .ok ()
    | .error fault => return .error fault

end Disk

end Peephole.CommandLine
