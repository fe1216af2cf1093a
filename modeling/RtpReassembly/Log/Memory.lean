import RtpReassembly.Log.Entry
import RtpReassembly.Text.Line

/-!
# Entries kept in memory

A log that keeps every entry in order and answers questions about them.
-/

namespace RtpReassembly.Log

/-- Entries in the order they were made. -/
structure Memory where
  entries : List Entry := []

namespace Memory

/-- The log with one more entry. -/
def push (m : Memory) (e : Entry) : Memory :=
  { entries := m.entries ++ [e] }

/-- How many entries have exactly a level. -/
def count (m : Memory) (level : Level) : Nat :=
  m.entries.countP (fun e => e.level == level)

/-- Whether an entry of exactly a level contains a text. -/
def contains (m : Memory) (level : Level) (part : String) : Bool :=
  m.entries.any (fun e => e.level == level && Text.contains part.toList e.text.toList)

end Memory

end RtpReassembly.Log
