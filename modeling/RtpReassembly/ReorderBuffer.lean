import RtpReassembly.Placement

/-!
# The reorder buffer

Packets that cannot be used yet wait in circular sequence order, the oldest at
the head.  A packet is put in by looking from the tail, since packets mostly
arrive in order: it goes behind the first one that it comes after, and is
refused when one with its number is met on the way.
-/

namespace RtpReassembly

/-- A waiting packet and its placement. -/
structure Slot where
  packet : Rtp.Packet
  placement : Placement
  deriving DecidableEq, Repr

namespace Slot

/-- The sequence number. -/
def seq (s : Slot) : SeqNum :=
  s.packet.seq

/-- The packet's body. -/
def body (s : Slot) : Bytes :=
  s.packet.body

/-- The slot of a packet, classified. -/
def ofPacket (codec : Codec) (p : Rtp.Packet) : Slot :=
  { packet := p, placement := Placement.ofBody codec p.body }

end Slot

/-- Waiting packets, oldest first. -/
abbrev ReorderBuffer := List Slot

namespace ReorderBuffer

/-- Puts `s` into a buffer that is given from its tail to its head; `none` if
its number is met there. -/
def insertFromTail? (s : Slot) : List Slot → Option (List Slot)
  | [] => some [s]
  | last :: older =>
    match SeqNum.order s.seq last.seq with
    | .eq => none
    | .gt => some (s :: last :: older)
    | .lt => (insertFromTail? s older).map (last :: ·)

/-- Puts a packet into the buffer; `none` if its number is there already. -/
def insert? (b : ReorderBuffer) (s : Slot) : Option ReorderBuffer :=
  (insertFromTail? s b.reverse).map List.reverse

/-- The sequence numbers from head to tail. -/
def seqs (b : ReorderBuffer) : List SeqNum :=
  b.map Slot.seq

end ReorderBuffer

end RtpReassembly
