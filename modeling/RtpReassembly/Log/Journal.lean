import RtpReassembly.Log.Entry
import RtpReassembly.Settings

/-!
# The log file

Where the log goes and what is written there, by the section `Logging` of the
settings: `log_path` is a directory, `log_filename` the start of the file's
name and `level` the least severe level that is kept.
-/

namespace RtpReassembly.Log

/-- The circumstances of a run. -/
structure Environment where
  /-- The user's home directory. -/
  home : Option String
  /-- The directory of the program. -/
  programDir : String
  /-- The directory for temporary files. -/
  tempDir : String
  /-- Seconds since 1970. -/
  seconds : Nat
  processId : Nat

/-- The path of `name` in a directory; an absolute name stands for itself. -/
def joinPath (dir name : String) : String :=
  if name.toList.head? = some '/' then name
  else if dir.toList.getLast?.any (· ≠ '/') then dir ++ "/" ++ name
  else dir ++ name

/-- A path with the home directory in the place of `~`. -/
def expandHome (home : Option String) (path : String) : String :=
  match path.toList, home with
  | ['~'], some home => home
  | '~' :: '/' :: rest, some home => joinPath home (String.ofList rest)
  | '~' :: '\\' :: rest, some home => joinPath home (String.ofList rest)
  | _, _ => path

/-- The level with a name; blanks around it and ASCII case do not matter. -/
def Level.ofName? (name : String) : Option Level :=
  match String.toLower (String.ofList (Text.trim name.toList)) with
  | "trace" => some .trace
  | "debug" => some .debug
  | "info" => some .info
  | "warn" => some .warning
  | "warning" => some .warning
  | "error" => some .error
  | _ => none

/-- A log file. -/
structure Journal where
  /-- The least severe level that is kept. -/
  level : Level
  dir : String
  fileName : String
  /-- The file that is used if the one asked for cannot be. -/
  fallback : String
  deriving DecidableEq, Repr

namespace Journal

/-- The section of settings about the log. -/
def sectionName : String := "Logging"

/-- The log file that settings ask for. -/
def ofSettings (env : Environment) (s : Settings) : Journal :=
  let name := (s.getNonEmpty? sectionName "log_filename").getD "rtp_unpacker"
  { level := ((s.getNonEmpty? sectionName "level").bind Level.ofName?).getD .info
    dir :=
      match s.getNonEmpty? sectionName "log_path" with
      | some path => expandHome env.home path
      | none => joinPath env.programDir "logs"
    fileName := s!"{name}-{env.seconds}-pid{env.processId}.log"
    fallback := joinPath env.tempDir "rtp_unpacker-fallback.log" }

/-- The path of the file. -/
def path (j : Journal) : String :=
  joinPath j.dir j.fileName

/-- What is written for entries, each made at its time. -/
def content (j : Journal) (entries : List (Nat × Entry)) : String :=
  String.join ((entries.filter (fun (_, e) => j.level.rank ≤ e.level.rank)).map
    (fun (timeMs, e) => e.render timeMs ++ "\n"))

end Journal

end RtpReassembly.Log
