import RtpReassembly.Codec
import RtpReassembly.Text.Blank
import RtpReassembly.Text.Line
import RtpReassembly.Text.Number

/-!
# Payload type mappings

The value of an `a=rtpmap:` line of a session description,
`<payload type> <encoding>/<clock rate>[/<parameters>]`.
-/

namespace RtpReassembly.Sdp

/-- What a payload type carries. -/
structure Mapping where
  payloadType : UInt8
  /-- The encoding name; its ASCII case does not matter. -/
  encoding : String
  clockRate : UInt32
  /-- Mostly the number of audio channels; zero says nothing. -/
  params : Option UInt16 := none
  deriving DecidableEq, Repr

/-- Why a text is no mapping. -/
inductive MappingError
  | missingParts
  | invalidPayloadType
  | invalidClockRate
  | invalidParams
  | payloadTypeOutOfRange
  | trailingWords
  deriving DecidableEq, Repr

/-- The wording of an error. -/
def MappingError.message : MappingError → String
  | .missingParts => "Missing required parts in rtpmap"
  | .invalidPayloadType => "Invalid payload type"
  | .invalidClockRate => "Invalid clock rate"
  | .invalidParams => "Invalid encoding parameters"
  | .payloadTypeOutOfRange => "Payload type out of [0,127]"
  | .trailingWords => "Unexpected trailing tokens after rtpmap"

namespace Mapping

/-- The codec that a mapping announces, if it can be reassembled. -/
def codec? (m : Mapping) : Option Codec :=
  Codec.ofEncodingName? m.encoding

/-- Reads the payload type, which has seven bits. -/
def readPayloadType (text : List Char) : Except MappingError UInt8 :=
  match Text.readNat 255 text with
  | .error _ => .error .invalidPayloadType
  | .ok n => if n ≤ 127 then .ok (UInt8.ofNat n) else .error .payloadTypeOutOfRange

/-- Reads the parameters.  None, an empty text and zero are the same. -/
def readParams : Option (List Char) → Except MappingError (Option UInt16)
  | none => .ok none
  | some [] => .ok none
  | some text =>
    match Text.readNat 65535 text with
    | .error _ => .error .invalidParams
    | .ok 0 => .ok none
    | .ok n => .ok (some (UInt16.ofNat n))

/-- Reads what follows the encoding name: `<clock rate>[/<parameters>]`. -/
def readClock (text : List Char) : Except MappingError (UInt32 × Option UInt16) :=
  let (clock, params) := Text.cutAt '/' text
  match Text.readNat 4294967295 clock with
  | .error _ => .error .invalidClockRate
  | .ok n =>
    match readParams params with
    | .error e => .error e
    | .ok params => .ok (UInt32.ofNat n, params)

/-- Reads `<encoding>/<clock rate>[/<parameters>]` for a payload type. -/
def readEncoding (payloadType : UInt8) (text : List Char) : Except MappingError Mapping :=
  match Text.cutAt '/' text with
  | ([], _) => .error .missingParts
  | (_, none) => .error .missingParts
  | (name, some rest) =>
    match readClock rest with
    | .error e => .error e
    | .ok (clockRate, params) =>
      .ok { payloadType, encoding := String.ofList name, clockRate, params }

/-- Reads a mapping.  The number of words is checked before any of them. -/
def read (text : List Char) : Except MappingError Mapping :=
  match Text.words text with
  | [number, encoding] =>
    match readPayloadType number with
    | .error e => .error e
    | .ok payloadType => readEncoding payloadType encoding
  | _ :: _ :: _ :: _ => .error .trailingWords
  | _ => .error .missingParts

/-- Reads a mapping from a string. -/
def parse (text : String) : Except MappingError Mapping :=
  read text.toList

end Mapping

end RtpReassembly.Sdp
