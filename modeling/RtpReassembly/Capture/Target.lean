import RtpReassembly.Capture.Record

/-!
# Writing a capture

A target takes octets as long as it has room for all of a single write, and
refuses a write as a whole otherwise.  A record is written field by field, so
a target that gets full can hold a part of it.
-/

namespace RtpReassembly.Capture

/-- Where a capture is written to. -/
structure Target where
  written : Bytes := []
  /-- Octets that it holds at most. -/
  room : Option Nat := none
  deriving DecidableEq, Repr

namespace Target

/-- The reason of a target that is full. -/
def full : String := "target full"

/-- One write of the octets of a field; an empty field needs none. -/
def write (t : Target) (b : Bytes) : Except String Target :=
  if b.isEmpty then .ok t
  else if t.room.any (· < t.written.length + b.length) then .error full
  else .ok { t with written := t.written ++ b }

/-- Writes of fields, up to the first that is refused. -/
def writeFields (t : Target) : List Bytes → Target × Except CaptureError Unit
  | [] => (t, .ok ())
  | b :: rest =>
    match t.write b with
    | .error reason => (t, .error (.device reason))
    | .ok t => writeFields t rest

/-- Writes a record, whose body must not be too large. -/
def writeRecord (t : Target) (r : Record) : Target × Except CaptureError Unit :=
  if maxBodyLength < r.body.length then (t, .error (.bodyTooLarge r.body.length))
  else t.writeFields r.fields

/-- Passes on whatever has been written; a target without any room left
refuses. -/
def flush (t : Target) : Except CaptureError Unit :=
  if t.room = some t.written.length then .error (.device full) else .ok ()

end Target

end RtpReassembly.Capture
