import RtpReassembly.Capture.Source

/-!
# Files

What the program does with files, and why a path cannot be opened.  The
program is written over `Files`, so that it runs alike on the files of a system
and on a tree of files in memory.
-/

namespace RtpReassembly

/-- Why a path cannot be opened. -/
inductive FileError
  | notFound
  | notDirectory
  | isDirectory
  | nameTooLong
  | nulInName
  | other (reason : String)
  deriving DecidableEq, Repr

/-- The wording of an error. -/
def FileError.message : FileError → String
  | .notFound => "No such file or directory (os error 2)"
  | .notDirectory => "Not a directory (os error 20)"
  | .isDirectory => "Is a directory (os error 21)"
  | .nameTooLong => "File name too long (os error 36)"
  | .nulInName => "file name contained an unexpected NUL byte"
  | .other reason => reason

/-- What can be done with files. -/
structure Files (m : Type → Type) where
  /-- Opens a path for reading.  A directory can be opened and fails at the
  first read. -/
  openRead : String → m (Except FileError Capture.Source)
  /-- Makes a directory with all that lead to it, as far as that can be done. -/
  makeDirs : String → m Unit
  /-- Adds octets to a file, which is made if it is not there. -/
  append : String → Bytes → m (Except FileError Unit)

namespace Files

/-- The names in a path, empty ones included. -/
def namesOf (path : String) : List String :=
  (path.toList.splitOn '/').map String.ofList

/-- Whether a path starts at the root. -/
def isAbsolute (path : String) : Bool :=
  path.toList.head? = some '/'

/-- The names that lead to the directory in which a path ends.  Empty names and
dots lead nowhere, so what stands before the last other name is meant. -/
def leadingNames (path : String) : List String :=
  ((namesOf path).filter (fun name => name ≠ "" ∧ name ≠ ".")).dropLast

/-- The directories that lead to the one in which a path ends, the nearest
first. -/
def leadingDirs (path : String) : List String :=
  let names := leadingNames path
  (List.range names.length).reverse.map fun index =>
    (if isAbsolute path then "/" else "") ++ "/".intercalate (names.take (index + 1))

end Files

/-- The source of a directory that was opened for reading. -/
def Capture.Source.ofDirectory : Capture.Source :=
  { deliveries := [], ending := .fails FileError.isDirectory.message }

end RtpReassembly
