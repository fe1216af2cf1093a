import RtpReassembly.Sdp.Mapping

/-!
# Media sections

A section of a session description: the value of its `m=` line,
`<kind> <port>[/<count>] <protocol> <format>...`, the mappings of its payload
types and the address at which it is controlled.
-/

namespace RtpReassembly.Sdp

/-- The kind of media; one that is not among the usual is kept as it is. -/
inductive MediaKind
  | audio
  | video
  | application
  | other (name : String)
  deriving DecidableEq, Repr

namespace MediaKind

/-- The name of a kind. -/
def name : MediaKind → String
  | .audio => "audio"
  | .video => "video"
  | .application => "application"
  | .other name => name

/-- The kind with a name. -/
def ofName (name : String) : MediaKind :=
  if name = "audio" then .audio
  else if name = "video" then .video
  else if name = "application" then .application
  else .other name

end MediaKind

/-- A media section. -/
structure Media where
  kind : MediaKind
  port : UInt16
  proto : String
  /-- The payload types that are announced. -/
  formats : List UInt8
  mappings : List Mapping := []
  /-- The value of the `a=control:` line. -/
  control : Option String := none
  deriving DecidableEq, Repr

/-- What a session description can lack. -/
inductive Part
  | mediaKind
  | mediaPort
  | mediaProto
  | media
  deriving DecidableEq, Repr

/-- The name of a part. -/
def Part.name : Part → String
  | .mediaKind => "m= kind"
  | .mediaPort => "m= port"
  | .mediaProto => "m= proto"
  | .media => "m="

/-- Why a text is no session description. -/
inductive SdpError
  | missing (part : Part)
  | mappingOutsideMedia
  | badPort (cause : Text.NumberError)
  | badMapping (cause : MappingError)
  deriving DecidableEq, Repr

/-- The wording of an error. -/
def SdpError.message : SdpError → String
  | .missing part => s!"Missing field: {part.name}"
  | .mappingOutsideMedia => "Invalid field: rtpmap outside media section"
  | .badPort cause => s!"Parse int error: {cause.message}"
  | .badMapping cause => s!"Bad rtpmap: {cause.message}"

namespace Media

/-- The first mapping of a payload type. -/
def mapping? (m : Media) (payloadType : UInt8) : Option Mapping :=
  m.mappings.find? (fun mapping => mapping.payloadType == payloadType)

/-- The payload type that a format names; other formats name none. -/
def format? (word : List Char) : Option UInt8 :=
  (Text.readNat 255 word).toOption.map UInt8.ofNat

/-- Reads the value of an `m=` line. -/
def read (text : List Char) : Except SdpError Media :=
  match Text.words text with
  | [] => .error (.missing .mediaKind)
  | [_] => .error (.missing .mediaPort)
  | kind :: port :: rest =>
    match Text.readNat 65535 (Text.cutAt '/' port).1 with
    | .error e => .error (.badPort e)
    | .ok n =>
      match rest with
      | [] => .error (.missing .mediaProto)
      | proto :: formats =>
        .ok { kind := MediaKind.ofName (String.ofList kind)
              port := UInt16.ofNat n
              proto := String.ofList proto
              formats := formats.filterMap format? }

/-- Reads the value of an `m=` line from a string. -/
def parse (text : String) : Except SdpError Media :=
  read text.toList

end Media

end RtpReassembly.Sdp
