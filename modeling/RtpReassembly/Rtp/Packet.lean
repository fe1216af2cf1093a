import RtpReassembly.Rtp.Header

/-!
# RTP packets

A packet is a header and a body; padding octets at the end of the datagram
belong to neither.  `Packet.decode` splits a received datagram, and
`Packet.make` builds a packet as a sender does, without padding.
-/

namespace RtpReassembly.Rtp

/-- A packet beside the datagram it came in. -/
structure Packet where
  header : Header
  /-- The whole datagram, kept for diagnostics. -/
  raw : Bytes
  /-- What follows the header, padding left out. -/
  body : Bytes
  /-- Octets of padding at the end of the datagram. -/
  paddingCount : UInt8 := 0
  deriving DecidableEq, Repr

namespace Packet

/-- The sequence number. -/
def seq (p : Packet) : SeqNum :=
  p.header.seq

/-- The RTP timestamp. -/
def timestamp (p : Packet) : UInt32 :=
  p.header.timestamp

/-- Parts what follows the header into body and padding.  The last octet of
padding is the count of all of them; it is neither zero nor more than there
is. -/
def splitPadding? (isPadded : Bool) (rest : Bytes) : Option (Bytes × UInt8) :=
  if isPadded then
    match rest.getLast? with
    | none => none
    | some count =>
      if count = 0 ∨ rest.length < count.toNat then none
      else some (rest.take (rest.length - count.toNat), count)
  else some (rest, 0)

/-- Splits a datagram. -/
def decode (raw : Bytes) : Except DecodeError Packet :=
  match Header.read raw with
  | .error e => .error e
  | .ok (header, rest) =>
    match splitPadding? header.padding rest with
    | none => .error .paddingTooShort
    | some (body, count) => .ok { header, raw, body, paddingCount := count }

/-- The packet with the given header and body; it has no padding. -/
def make (header : Header) (body : Bytes) : Packet :=
  let header := { header with padding := false }
  { header, raw := header.encode ++ body, body }

/-- A packet with a plain header. -/
def simple (payloadType : UInt8) (marker : Bool) (seq : SeqNum) (timestamp ssrc : UInt32)
    (body : Bytes) : Packet :=
  make { payloadType, seq, timestamp, ssrc, marker } body

end Packet

end RtpReassembly.Rtp
