import RtpReassembly.Bytes

/-!
# Codecs

The two payload formats, H.264 (RFC 6184) and H.265 (RFC 7798), and the sizes
and header rules in which they differ.  A fragment carries the payload header
of its format and one fragment octet; the header of the NAL unit that was cut
up is put together from both.
-/

namespace RtpReassembly

/-- A payload format that can be reassembled. -/
inductive Codec
  | h264
  | h265
  deriving DecidableEq, Repr

namespace Codec

/-- The name of a codec. -/
def name : Codec → String
  | .h264 => "H264"
  | .h265 => "H265"

/-- The codec with an encoding name, of which ASCII case does not matter. -/
def ofEncodingName? (encoding : String) : Option Codec :=
  match encoding.toUpper with
  | "H264" => some .h264
  | "H265" => some .h265
  | "HEVC" => some .h265
  | _ => none

/-- Octets of a NAL unit header. -/
def nalHeaderLength : Codec → Nat
  | .h264 => 1
  | .h265 => 2

/-- Octets before the data of a fragment: payload header and fragment octet. -/
def fragmentPrefixLength (c : Codec) : Nat :=
  c.nalHeaderLength + 1

/-- Octets before the first record of an aggregation. -/
def aggregationSkip : Codec → Nat
  | .h264 => 1
  | .h265 => 2

/-- The type of the NAL unit, or of the packet, in its first octet. -/
def unitType : Codec → UInt8 → UInt8
  | .h264, b => b &&& 0x1F
  | .h265, b => (b >>> 1) &&& 0x3F

/-- The NAL unit header of a fragmented unit, from the body of its first
fragment; `none` if that is too short.  The header of H.264 is the first octet
alone, and the second is zero. -/
def rebuiltHeader? : Codec → Bytes → Option (UInt8 × UInt8)
  | .h264, indicator :: fragment :: _ =>
    some ((indicator &&& 0xE0) ||| (fragment &&& 0x1F), 0)
  | .h265, first :: second :: fragment :: _ =>
    some ((first &&& 0x81) ||| ((fragment &&& 0x3F) <<< (1 : UInt8)), second)
  | _, _ => none

/-- The octets of the NAL unit header of a fragmented unit. -/
def rebuiltHeaderOctets? (c : Codec) (startBody : Bytes) : Option Bytes :=
  (c.rebuiltHeader? startBody).map (fun (first, second) => [first, second].take c.nalHeaderLength)

/-- The data of a fragment, behind its prefix; `none` if it is shorter. -/
def fragmentData? (c : Codec) (body : Bytes) : Option Bytes :=
  if c.fragmentPrefixLength ≤ body.length then some (body.drop c.fragmentPrefixLength) else none

end Codec

end RtpReassembly
