import RtpReassembly.Codec
import RtpReassembly.Rtp.Packet
import RtpReassembly.Log.Entry
import RtpReassembly.Bytes.Preview

/-!
# Placement of a packet

What a packet body carries is decided by its payload header alone: one whole
NAL unit, an aggregation of several, or the start, middle or end of one that
was cut up.  Anything else is unsupported.
-/

namespace RtpReassembly

/-- Where a packet stands in the access unit that it carries. -/
inductive Placement
  | single
  | aggregationStart
  /-- No packet is classified so, since an aggregation is complete in itself. -/
  | aggregationMember
  | fragmentStart
  | fragmentMiddle
  | fragmentEnd
  | unknown
  deriving DecidableEq, Repr

namespace Placement

/-- The name in log entries. -/
def name : Placement → String
  | .single => "Single"
  | .aggregationStart => "AggregationStart"
  | .aggregationMember => "AggregationMember"
  | .fragmentStart => "FragmentStart"
  | .fragmentMiddle => "FragmentMiddle"
  | .fragmentEnd => "FragmentEnd"
  | .unknown => "Unknown"

/-- Whether the packet can only follow an earlier fragment. -/
def isContinuation : Placement → Bool
  | .fragmentMiddle | .fragmentEnd => true
  | _ => false

/-- The placement that a fragment octet states; its start bit wins. -/
def ofFragmentOctet (b : UInt8) : Placement :=
  if b &&& 0x80 != 0 then .fragmentStart
  else if b &&& 0x40 != 0 then .fragmentEnd
  else .fragmentMiddle

/-- The placement of an H.264 body. -/
def ofH264 : Bytes → Placement
  | [] => .unknown
  | first :: rest =>
    let t := Codec.h264.unitType first
    if t ≤ 23 then .single
    else if t = 24 then .aggregationStart
    else if t = 28 then
      match rest with
      | fragment :: _ => ofFragmentOctet fragment
      | [] => .unknown
    else .unknown

/-- The H.265 unit types taken as whole units: the slices, the parameter sets,
the access unit delimiter and the supplemental information. -/
def isH265Single (t : UInt8) : Bool :=
  t ≤ 9 || (16 ≤ t && t ≤ 23) || (32 ≤ t && t ≤ 35) || t == 39 || t == 40

/-- The placement of an H.265 body. -/
def ofH265 : Bytes → Placement
  | first :: _ :: rest =>
    let t := Codec.h265.unitType first
    if isH265Single t then .single
    else if t = 48 then .aggregationStart
    else if t = 49 then
      match rest with
      | fragment :: _ => ofFragmentOctet fragment
      | [] => .unknown
    else .unknown
  | _ => .unknown

/-- The placement of a body. -/
def ofBody : Codec → Bytes → Placement
  | .h264, body => ofH264 body
  | .h265, body => ofH265 body

/-- What is logged about a packet that was classified: an unsupported one is
shown in full, as far as a preview goes. -/
def remark (codec : Codec) (packet : Rtp.Packet) : Log.Entry :=
  let about (level : Log.Level) (text : String) : Log.Entry :=
    Log.Component.placement.entry level (s!"[{codec.name}] " ++ text)
  match ofBody codec packet.body with
  | .unknown =>
    let outer :=
      match packet.body with
      | first :: _ => toString (codec.unitType first)
      | [] => "-1"
    about .warning (s!"unknown nalu type. outer_type={outer}, seq={packet.seq}, " ++
      s!"ts={packet.timestamp}, len={packet.raw.length}, raw=\n" ++ Preview.render packet.raw)
  | placement => about .trace s!"seq={packet.seq} classified as {placement.name}"

end Placement

end RtpReassembly
