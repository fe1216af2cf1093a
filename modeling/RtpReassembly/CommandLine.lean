import RtpReassembly.Log.JournalFile
import RtpReassembly.Replay

/-!
# The command line

`rtp_replay <capture> [config]` replays a capture under the settings of a
file, prints the summary, and logs to the file that the settings ask for.
Without readable settings it goes on with the defaults.  The directory of the
log is made before the capture is opened, so a capture can be sought there.
-/

namespace RtpReassembly

/-- Why settings cannot be loaded. -/
inductive LoadError
  | unreadable (path reason : String)
  deriving DecidableEq, Repr

/-- The wording of an error. -/
def LoadError.message : LoadError → String
  | .unreadable path reason => s!"Error reading file {path}: {reason}"

/-- The reason given for a file of settings that is no text. -/
def invalidText : String := "stream did not contain valid UTF-8"

/-- The settings in a file, given what came of opening it. -/
def Settings.ofFile (path : String) : Except FileError Capture.Source → Except LoadError Settings
  | .error e => .error (.unreadable path e.message)
  | .ok source =>
    match source.readToEnd with
    | .error reason => .error (.unreadable path reason)
    | .ok octets =>
      match Utf8.decode? octets with
      | none => .error (.unreadable path invalidText)
      | some text => .ok (Settings.read text)

variable {m : Type → Type} [Monad m]

/-- Loads settings from a file. -/
def Settings.load (files : Files m) (path : String) : m (Except LoadError Settings) := do
  return Settings.ofFile path (← files.openRead path)

namespace CommandLine

/-- What a run comes to. -/
structure Outcome where
  exitCode : Nat
  stdout : String := ""
  stderr : String := ""
  /-- The log file, if the run got so far, and what is logged. -/
  journal : Option Log.Journal := none
  log : List Log.Entry := []

/-- The settings file that is looked for if none is named. -/
def defaultSettings : String := "rtp_unpacker.conf"

/-- The settings that a run goes on with, and what is said about them. -/
def settingsOr : Except LoadError Settings → Settings × String
  | .ok s => (s, "")
  | .error e => ({}, s!"Error loading config: {e.message}. Using defaults.\n")

/-- What a run comes to once the capture was opened, or could not be. -/
def replay (capture : String) (settings : Settings) (said : String) (journal : Log.Journal) :
    Except FileError Capture.Source → Outcome
  | .error e =>
    { exitCode := 1, stderr := said ++ s!"cannot open {capture}: {e.message}\n"
      journal := some journal }
  | .ok source =>
    let replayed := Replay.run (Policy.ofSettings settings) source
    match replayed.result with
    | .ok summary =>
      { exitCode := 0
        stdout := summary.render ++ s!"\nlog:           {journal.path}\n"
        stderr := said
        journal := some journal
        log := replayed.log }
    | .error e =>
      { exitCode := 1
        stderr := said ++ e.message ++ "\n"
        journal := some journal
        log := replayed.log }

/-- A run with the arguments after the program's name, up to writing the log. -/
def run (files : Files m) (env : Log.Environment) : List String → m Outcome
  | [] => return { exitCode := 2, stderr := "usage: rtp_replay <capture> [config]\n" }
  | capture :: rest => do
    let loaded ← Settings.load files (rest.head?.getD defaultSettings)
    let (settings, said) := settingsOr loaded
    let journal := Log.Journal.ofSettings env settings
    journal.prepare files
    return replay capture settings said journal (← files.openRead capture)

end CommandLine

end RtpReassembly
