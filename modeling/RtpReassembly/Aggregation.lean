import RtpReassembly.AccessUnit

/-!
# Aggregation packets

Behind the payload header an aggregation is a string of NAL units, each behind
its length as a big-endian word of two octets.  An access unit needs lengths
of four octets.  So the string is walked twice: `widenedLength?` checks every
record and adds up the result's length, and `widen` copies, trusting that
check.

* `encode` writes such a string and `take?` reads its first record;
* `widenedLength?` and `widen` are the walks.  A string that `encode` gave passes
  the first of them, and the second one copies its NAL units.
-/

namespace RtpReassembly.Aggregation

/-- One NAL unit behind its length. -/
def record (unit : Bytes) : Bytes :=
  Bytes.be16 (UInt16.ofNat unit.length) ++ unit

/-- NAL units, each behind its length. -/
def encode (units : List Bytes) : Bytes :=
  units.flatMap record

/-- The first NAL unit and what is left, if its record is complete. -/
def take? : Bytes → Option (Bytes × Bytes)
  | hi :: lo :: rest => Bytes.splitExact? (Bytes.word16 hi lo).toNat rest
  | _ => none

/-- Each record that is taken off leaves less, so that both walks end. -/
theorem take?_length {b unit rest : Bytes} (h : take? b = some (unit, rest)) :
    rest.length < b.length := by
  unfold take? at h
  split at h
  · obtain ⟨rfl, -⟩ := Bytes.splitExact?_eq_some_iff.mp h
    simp only [List.length_cons, List.length_append]
    omega
  · simp at h

/-- The length, with four octets for each length, of records that follow
others of widened length `total`; `none` if a record is cut off. -/
def widenedLengthFrom? (total : Nat) (b : Bytes) : Option Nat :=
  if b.isEmpty then some total
  else
    match _h : take? b with
    | some (unit, rest) => widenedLengthFrom? (total + 4 + unit.length) rest
    | none => none
termination_by b.length
decreasing_by exact take?_length _h

/-- The length of the records with four octets for each length; `none` unless
there is a record and all of them are complete. -/
def widenedLength? (b : Bytes) : Option Nat :=
  (widenedLengthFrom? 0 b).filter (0 < ·)

/-- The records with four octets for each length; a record that is cut off
ends the copy. -/
def widen (b : Bytes) : Bytes :=
  match _h : take? b with
  | some (unit, rest) => Avcc.record unit ++ widen rest
  | none => []
termination_by b.length
decreasing_by exact take?_length _h

end RtpReassembly.Aggregation
