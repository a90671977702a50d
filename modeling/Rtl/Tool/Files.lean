/-! # Files

Where a text goes that is written to a path, and which error it meets on the way. The names in
front of the last one are followed first, from left to right, and each of them has to lead to a
directory.
-/

namespace Rtl.Tool

inductive FileError where
  | notFound
  | permissionDenied
  | notDirectory
  | isDirectory
  | noSpace
  | nameTooLong
deriving DecidableEq

namespace FileError

def all : List FileError :=
  [notFound, permissionDenied, notDirectory, isDirectory, noSpace, nameTooLong]

/-- The number of an error in the operating system. -/
def code : FileError → Nat
  | notFound => 2
  | permissionDenied => 13
  | notDirectory => 20
  | isDirectory => 21
  | noSpace => 28
  | nameTooLong => 36

def ofCode? (code : Nat) : Option FileError :=
  all.find? (·.code = code)

def kind : FileError → String
  | notFound => "NotFound"
  | permissionDenied => "PermissionDenied"
  | notDirectory => "NotADirectory"
  | isDirectory => "IsADirectory"
  | noSpace => "StorageFull"
  | nameTooLong => "InvalidFilename"

def message : FileError → String
  | notFound => "No such file or directory"
  | permissionDenied => "Permission denied"
  | notDirectory => "Not a directory"
  | isDirectory => "Is a directory"
  | noSpace => "No space left on device"
  | nameTooLong => "File name too long"

theorem ofCode?_code (error : FileError) : ofCode? error.code = some error := by
  cases error <;> rfl

end FileError

inductive Entry where
  /-- A directory, and the error that a new file in it meets, if none can be made. -/
  | directory (refusal : Option FileError)
  /-- A file, and the error that a text written to it meets, if it takes none. -/
  | file (refusal : Option FileError)
deriving DecidableEq

/-- The names of the directories from the root down to a file, and that of the file. -/
abbrev Location := List String

/-- The files that are there. -/
structure Files where
  entries : List (Location × Entry)
  /-- The directory in which a path starts that does not start at the root. -/
  current : Location

namespace Files

/-- The longest name of a file, in bytes. -/
def maxName : Nat := 255

/-- The longest path, in bytes. -/
def maxPath : Nat := 4095

def find? (files : Files) (location : Location) : Option Entry :=
  if location.isEmpty then some (.directory none) else files.entries.lookup location

/-- The directory that a name leads to from another one. -/
def enter (files : Files) (directory : Location) (name : String) :
    Except FileError Location :=
  if name = "." then .ok directory
  else if name = ".." then .ok directory.dropLast
  else if maxName < name.utf8ByteSize then .error .nameTooLong
  else match files.find? (directory ++ [name]) with
    | none => .error .notFound
    | some (.file _) => .error .notDirectory
    | some (.directory _) => .ok (directory ++ [name])

/-- Whether a text can be written under a name in a directory. -/
def accept (files : Files) (directory : Location) (name : String) :
    Except FileError Location :=
  let location := directory ++ [name]
  let refusal := match files.find? location, files.find? directory with
    | some (.directory _), _ => some .isDirectory
    | some (.file refusal), _ => refusal
    | none, some (.directory refusal) => refusal
    | none, _ => none
  match refusal with
  | some error => .error error
  | none => .ok location

/-- The file that a path leads to, which need not be there yet. -/
def destination (files : Files) (path : String) : Except FileError Location :=
  if path = "" then .error .notFound
  else if maxPath < path.utf8ByteSize then .error .nameTooLong
  else
    let parts := path.splitOn "/"
    let names := parts.filter (· ≠ "")
    match names.getLast? with
    | none => .error .isDirectory
    | some name => do
        let start := if parts.head? = some "" then [] else files.current
        let directory ← names.dropLast.foldlM files.enter start
        if name = "." || name = ".." || parts.getLast? = some "" then .error .isDirectory
        else if maxName < name.utf8ByteSize then .error .nameTooLong
        else files.accept directory name

end Files

end Rtl.Tool
