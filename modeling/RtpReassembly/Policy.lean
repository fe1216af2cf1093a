/-!
# Buffering policy

How long the buffer waits and how much it holds.
-/

namespace RtpReassembly

/-- The policy of one stream. -/
structure Policy where
  /-- Packets that may wait; beyond it the oldest leave. -/
  capacity : Nat := 1024
  /-- Packets that may wait behind a hole before its packets count as lost. -/
  tolerance : Nat := 16
  /-- Whether a fragment without its start is discarded once the start cannot
  come any more; else it stays until it is evicted. -/
  discardOrphans : Bool := true
  deriving DecidableEq, Repr

namespace Policy

/-- The policy with another capacity, which is at least one. -/
def withCapacity (p : Policy) (n : Nat) : Policy :=
  { p with capacity := max n 1 }

/-- Whether a hole counts as lost with `behind` packets waiting behind it. -/
def isLost (p : Policy) (behind : Nat) : Bool :=
  p.tolerance < behind

end Policy

end RtpReassembly
