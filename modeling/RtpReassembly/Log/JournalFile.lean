import RtpReassembly.Log.Journal
import RtpReassembly.Files
import RtpReassembly.Text.Utf8

/-!
# Writing the log file

The directory of a log file is made before anything else happens.  If the file
cannot be opened the log goes to the fallback, and if that cannot be opened
either it is lost.
-/

namespace RtpReassembly.Log.Journal

variable {m : Type → Type} [Monad m]

/-- Makes the directory of the log file. -/
def prepare (files : Files m) (j : Journal) : m Unit :=
  files.makeDirs j.dir

/-- Writes entries, each made at its time. -/
def write (files : Files m) (j : Journal) (entries : List (Nat × Entry)) : m Unit := do
  let octets := Utf8.encode (j.content entries)
  match ← files.append j.path octets with
  | .ok () => return ()
  | .error _ => discard (files.append j.fallback octets)

end RtpReassembly.Log.Journal
