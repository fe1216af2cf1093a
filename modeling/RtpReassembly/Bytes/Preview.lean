import RtpReassembly.Text.Hex

/-!
# Dump of the first octets

A packet that cannot be used is shown in the log as rows of sixteen octets
behind an offset column, cut off after `limit` octets.
-/

namespace RtpReassembly.Preview

/-- Octets shown at most. -/
def limit : Nat := 128

/-- Octets in a row. -/
def rowLength : Nat := 16

/-- One row: the offset of its first octet, then each octet behind a blank. -/
def row (offset : Nat) (octets : Bytes) : List Char :=
  Hex.padded 8 offset ++ ' ' :: octets.flatMap (fun b => ' ' :: Hex.octet b)

/-- The rows of `b`, of which the first has number `index`. -/
def rows (index : Nat) (b : Bytes) : List (List Char) :=
  if b.isEmpty then []
  else row (index * rowLength) (b.take rowLength) :: rows (index + 1) (b.drop rowLength)
termination_by b.length
decreasing_by
  rename_i h
  have : 0 < b.length := List.length_pos_iff.mpr (by simpa using h)
  simp only [List.length_drop, rowLength]
  omega

/-- The rows of the first `limit` octets, and dots if there are more. -/
def render (b : Bytes) : String :=
  String.ofList (List.intercalate ['\n'] (rows 0 (b.take limit)) ++
    if (b.drop limit).isEmpty then [] else " ...".toList)

end RtpReassembly.Preview
