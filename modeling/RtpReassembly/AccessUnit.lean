import RtpReassembly.Codec

/-!
# Access units

A reassembled access unit is a string of NAL units, each behind its length as
a big-endian word of four octets.

* `Avcc.encode` writes such a string and `Avcc.take?` reads its first record;
* `Avcc.next` is a step of a reader and `Avcc.records` what the reader gives
  altogether.  A record that declares more octets than are left ends the
  reading, and so does a tail of fewer than four octets.
-/

namespace RtpReassembly

namespace Avcc

/-- One NAL unit behind its length. -/
def record (unit : Bytes) : Bytes :=
  Bytes.be32 (UInt32.ofNat unit.length) ++ unit

/-- NAL units, each behind its length. -/
def encode (units : List Bytes) : Bytes :=
  units.flatMap record

/-- The first NAL unit and what is left, if its record is complete. -/
def take? : Bytes → Option (Bytes × Bytes)
  | a :: b :: c :: d :: rest => Bytes.splitExact? (Bytes.word32 a b c d).toNat rest
  | _ => none

/-- Each record that is taken off leaves less, so that reading ends. -/
theorem take?_length {payload unit rest : Bytes} (h : take? payload = some (unit, rest)) :
    rest.length < payload.length := by
  unfold take? at h
  split at h
  · obtain ⟨rfl, -⟩ := Bytes.splitExact?_eq_some_iff.mp h
    simp only [List.length_cons, List.length_append]
    omega
  · simp at h

/-- One step of a reader that stands before `rest`: the next NAL unit, if its
record is complete, and where the reader stands then.  A tail too short for a
length stays; a record that is cut off is passed over with all that follows. -/
def next (rest : Bytes) : Option Bytes × Bytes :=
  match take? rest with
  | some (unit, behind) => (some unit, behind)
  | none => (none, if rest.length < 4 then rest else [])

/-- The NAL units that a reader gives before it first gives none, and where it
stands after that. -/
def readAll (payload : Bytes) : List Bytes × Bytes :=
  match _h : take? payload with
  | some (unit, rest) =>
    let (units, left) := readAll rest
    (unit :: units, left)
  | none => ([], (next payload).2)
termination_by payload.length
decreasing_by exact take?_length _h

/-- The NAL units of the complete records at the front of a string. -/
def records (payload : Bytes) : List Bytes :=
  (readAll payload).1

end Avcc

/-- An access unit with its presentation time in milliseconds. -/
structure AccessUnit where
  codec : Codec
  timestamp : UInt64
  payload : Bytes
  deriving DecidableEq, Repr

namespace AccessUnit

/-- The NAL units, without their lengths. -/
def nalUnits (u : AccessUnit) : List Bytes :=
  Avcc.records u.payload

/-- The text of an access unit in log entries. -/
def describe (u : AccessUnit) : String :=
  s!"type={u.codec.name}, ts={u.timestamp}ms, len={u.payload.length}, nalus={u.nalUnits.length}"

end AccessUnit

end RtpReassembly
