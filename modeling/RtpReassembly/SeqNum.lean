/-!
# Sequence numbers

RTP numbers packets modulo 2^16.  Two numbers are compared the short way
around the circle: `a` is after `b` when it is less than half the circle ahead
of it.  This order is total on any half circle and on nothing larger.
-/

namespace RtpReassembly

/-- The number of a packet in its stream, modulo 2^16. -/
abbrev SeqNum := UInt16

namespace SeqNum

/-- Half of the circle. -/
def half : Nat := 0x8000

/-- How far `a` is ahead of `b`, going forward only. -/
def ahead (a b : SeqNum) : Nat :=
  (a - b).toNat

/-- The signed distance from `b` to `a`, the short way around; half a circle
counts as backward. -/
def offset (a b : SeqNum) : Int :=
  if ahead a b < half then ahead a b else (ahead a b : Int) - 0x10000

/-- Where `a` stands to `b` on the circle. -/
def order (a b : SeqNum) : Ordering :=
  if a = b then .eq else if ahead a b < half then .gt else .lt

/-- Whether `next` is the number after `prev`. -/
def follows (prev next : SeqNum) : Bool :=
  next == prev + 1

/-- The numbers strictly between `prev` and the later `next`; none if `next`
is not ahead. -/
def missingBetween (prev next : SeqNum) : Nat :=
  (offset next prev - 1).toNat

end SeqNum

end RtpReassembly
