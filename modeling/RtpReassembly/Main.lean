import RtpReassembly.CommandLine
import Std.Time.DateTime.Timestamp

/-!
# The program

Runs the command line on the files of the system, and writes out what it comes
to.
-/

namespace RtpReassembly.Program

/-- The error with a number of the system, which can be negated. -/
def errorOfCode (code : UInt32) (details : String) : FileError :=
  let code := min code.toNat (-code).toNat
  if code = 2 then .notFound
  else if code = 20 then .notDirectory
  else if code = 21 then .isDirectory
  else if code = 36 then .nameTooLong
  else .other s!"{details} (os error {code})"

/-- What an exception says about a path. -/
def errorOf : IO.Error → FileError
  | .noFileOrDirectory _ code details => errorOfCode code details
  | .inappropriateType _ code details => errorOfCode code details
  | .permissionDenied _ code details => errorOfCode code details
  | .invalidArgument _ code details => if code = 22 then .nulInName else errorOfCode code details
  | e => .other (toString e)

/-- Opens a file by reading all of it. -/
def openRead (path : String) : IO (Except FileError Capture.Source) := do
  try
    let octets ← IO.FS.readBinFile path
    return .ok (.ofBytes octets.toList)
  catch e =>
    match errorOf e with
    | .isDirectory => return .ok .ofDirectory
    | e => return .error e

/-- Makes the first directory of a list.  If what leads to it is missing, the
next in the list is made before it in the same way. -/
def makeFirst : List String → IO Unit
  | [] => return
  | path :: leading => do
    try IO.FS.createDir path
    catch e =>
      if errorOf e = .notFound then
        makeFirst leading
        try IO.FS.createDir path catch _ => return

/-- Makes a directory with all that lead to it, as far as that can be done. -/
def makeDirs (path : String) : IO Unit :=
  makeFirst (path :: Files.leadingDirs path)

/-- Adds to a file, which is made if it is not there. -/
def append (path : String) (octets : Bytes) : IO (Except FileError Unit) := do
  try
    let handle ← IO.FS.Handle.mk path .append
    handle.write ⟨octets.toArray⟩
    handle.flush
    return .ok ()
  catch e => return .error (errorOf e)

/-- The files of the system. -/
def files : Files IO := { openRead, makeDirs, append }

/-- The number of this process, if the system tells it. -/
def processId : IO Nat := do
  try
    let status ← IO.FS.readFile "/proc/self/stat"
    return ((status.splitOn " ").head?.bind String.toNat?).getD 0
  catch _ => return 0

/-- The circumstances of this run. -/
def environment : IO Log.Environment := do
  let now ← Std.Time.Timestamp.now
  return {
    home := ← IO.getEnv "HOME"
    programDir := (← IO.appDir).toString
    tempDir := (← IO.getEnv "TMPDIR").getD "/tmp"
    seconds := now.toSecondsSinceUnixEpoch.val.toNat
    processId := ← processId }

/-- Writes entries to the log file. -/
def writeJournal (journal : Log.Journal) (entries : List Log.Entry) : IO Unit := do
  let now ← Std.Time.Timestamp.now
  let timeMs := now.toMillisecondsSinceUnixEpoch.val.toNat
  journal.write files (entries.map fun e => (timeMs, e))

end RtpReassembly.Program

open RtpReassembly in
/-- Runs the command line. -/
def main (args : List String) : IO UInt32 := do
  let env ← Program.environment
  let outcome ← CommandLine.run Program.files env args
  outcome.journal.forM fun journal => Program.writeJournal journal outcome.log
  IO.print outcome.stdout
  IO.eprint outcome.stderr
  return UInt32.ofNat outcome.exitCode
