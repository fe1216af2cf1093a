import RtpReassembly.Aggregation
import RtpReassembly.Placement

/-!
# Packets of a sender

A sender puts NAL units into packets in one of three ways: a unit as it is, an
aggregation of several, or a unit cut into pieces.

* `Shipment.bodies` gives the packet bodies of one way, and `Shipment.Fits`
  says when the codec allows it;
* `Sender.packets` numbers the packets of shipments one after the other, and
  `Sender.units` lists the NAL units that are in them.
-/

namespace RtpReassembly

namespace Codec

/-- The first octet of a header with another type in it. -/
def withUnitType : Codec → UInt8 → UInt8 → UInt8
  | .h264, first, t => (first &&& 0xE0) ||| t
  | .h265, first, t => (first &&& 0x81) ||| (t <<< (1 : UInt8))

/-- The type of aggregations. -/
def aggregationType : Codec → UInt8
  | .h264 => 24
  | .h265 => 48

/-- The type of fragments. -/
def fragmentType : Codec → UInt8
  | .h264 => 28
  | .h265 => 49

/-- The header of an aggregation.  Beside its type the sender chooses the bits
of importance, layer and time. -/
def aggregationHeader (c : Codec) (first second : UInt8) : Bytes :=
  [c.withUnitType first c.aggregationType, second].take c.nalHeaderLength

/-- The fragment octet of a piece of a NAL unit of type `unitType`. -/
def fragmentOctet (isFirst isLast : Bool) (unitType : UInt8) : UInt8 :=
  Rtp.flag 0x80 isFirst ||| Rtp.flag 0x40 isLast ||| unitType

/-- What stands before a piece of a NAL unit: the header of the unit with the
type of fragments in place of its own, which is in the fragment octet. -/
def fragmentHeader (c : Codec) (isFirst isLast : Bool) : Bytes → Bytes
  | [] => []
  | first :: rest =>
    c.withUnitType first c.fragmentType :: rest.take (c.nalHeaderLength - 1) ++
      [fragmentOctet isFirst isLast (c.unitType first)]

end Codec

/-- NAL units and the way in which they are put into packets. -/
inductive Shipment
  /-- A unit is the body of a packet. -/
  | whole (unit : Bytes)
  /-- Units go into one packet, behind a header with bits of the sender's. -/
  | together (first second : UInt8) (units : List Bytes)
  /-- A unit is cut up, its header apart. -/
  | inPieces (unit : Bytes) (pieces : List Bytes)
  deriving DecidableEq, Repr

namespace Shipment

/-- The NAL units. -/
def units : Shipment → List Bytes
  | .whole unit => [unit]
  | .together _ _ units => units
  | .inPieces unit _ => [unit]

/-- The bodies of the packets with pieces of a unit. -/
def pieceBodies (codec : Codec) (unit : Bytes) (isFirst : Bool) : List Bytes → List Bytes
  | [] => []
  | piece :: rest =>
    (codec.fragmentHeader isFirst rest.isEmpty unit ++ piece) ::
      pieceBodies codec unit false rest

/-- The bodies of the packets. -/
def bodies (codec : Codec) : Shipment → List Bytes
  | .whole unit => [unit]
  | .together first second units =>
    [codec.aggregationHeader first second ++ Aggregation.encode units]
  | .inPieces unit pieces => pieceBodies codec unit true pieces

/-- Whether a codec allows a shipment, and a receiver that holds at most
`capacity` packets can take it in. -/
def Fits (codec : Codec) (capacity : Nat) : Shipment → Prop
  | .whole unit =>
    codec.nalHeaderLength ≤ unit.length ∧ unit.length < 0x100000000 ∧
      Placement.ofBody codec unit = .single
  | .together _ _ units =>
    units ≠ [] ∧ ∀ unit ∈ units, codec.nalHeaderLength ≤ unit.length ∧ unit.length ≤ 65535
  | .inPieces unit pieces =>
    codec.nalHeaderLength ≤ unit.length ∧ unit.length < 0x100000000 ∧
      pieces.flatten = unit.drop codec.nalHeaderLength ∧
      2 ≤ pieces.length ∧ pieces.length ≤ capacity + 1 ∧ pieces.length < SeqNum.half

end Shipment

/-- What all packets of a sender have in common. -/
structure Sender where
  codec : Codec
  payloadType : UInt8
  ssrc : UInt32
  deriving DecidableEq, Repr

namespace Sender

/-- Packets with the given bodies and one time, from a number on; the last of
them has the marker if it ends a picture. -/
def number (s : Sender) (timestamp : UInt32) (endsPicture : Bool) (seq : SeqNum) :
    List Bytes → List Rtp.Packet
  | [] => []
  | body :: rest =>
    Rtp.Packet.simple s.payloadType (endsPicture && rest.isEmpty) seq timestamp s.ssrc body ::
      number s timestamp endsPicture (seq + 1) rest

/-- A shipment at a time. -/
structure Item where
  timestamp : UInt32
  endsPicture : Bool
  shipment : Shipment
  deriving DecidableEq, Repr

/-- The packets of shipments, numbered from `seq` on. -/
def packets (s : Sender) (seq : SeqNum) : List Item → List Rtp.Packet
  | [] => []
  | item :: items =>
    let bodies := item.shipment.bodies s.codec
    s.number item.timestamp item.endsPicture seq bodies ++
      packets s (seq + UInt16.ofNat bodies.length) items

/-- The NAL units of shipments. -/
def units (items : List Item) : List Bytes :=
  items.flatMap (fun item => item.shipment.units)

end Sender

end RtpReassembly
