import RtpReassembly.Sdp.Media

/-!
# Session descriptions

Of a session description only the media sections matter, with the mappings of
their payload types and their control addresses; every other line is passed
over.  `Description.videoStreams` and `Description.unsupportedStreams` part
the mappings into those that can be reassembled and the others.
-/

namespace RtpReassembly.Sdp

/-- A line of a session description. -/
inductive Line
  | media (value : List Char)
  | mapping (value : List Char)
  | control (value : List Char)
  | other
  deriving DecidableEq, Repr

/-- The line that a text is, blanks at its ends apart. -/
def Line.ofText (text : List Char) : Line :=
  let text := Text.trim text
  match Text.afterHead? "m=".toList text with
  | some value => .media value
  | none =>
    match Text.afterHead? "a=rtpmap:".toList text with
    | some value => .mapping value
    | none =>
      match Text.afterHead? "a=control:".toList text with
      | some value => .control value
      | none => .other

/-- A session description. -/
structure Description where
  media : List Media
  deriving DecidableEq, Repr

/-- A payload type that can be reassembled. -/
structure VideoStream where
  payloadType : UInt8
  codec : Codec
  clockRate : UInt32
  control : Option String
  deriving DecidableEq, Repr

/-- A payload type that cannot. -/
structure UnsupportedStream where
  kind : MediaKind
  payloadType : UInt8
  encoding : String
  deriving DecidableEq, Repr

namespace Description

/-- The sections after one more line; the latest section comes first. -/
def addLine (sections : List Media) : Line → Except SdpError (List Media)
  | .media value =>
    match Media.read value with
    | .error e => .error e
    | .ok m => .ok (m :: sections)
  | .mapping value =>
    match sections with
    | [] => .error .mappingOutsideMedia
    | m :: older =>
      match Mapping.read value with
      | .error e => .error (.badMapping e)
      | .ok mapping => .ok ({ m with mappings := m.mappings ++ [mapping] } :: older)
  | .control value =>
    match sections with
    | [] => .ok []
    | m :: older => .ok ({ m with control := some (String.ofList (Text.trim value)) } :: older)
  | .other => .ok sections

/-- The sections after more lines, up to the first that is wrong. -/
def addLines (sections : List Media) : List Line → Except SdpError (List Media)
  | [] => .ok sections
  | line :: lines =>
    match addLine sections line with
    | .error e => .error e
    | .ok sections => addLines sections lines

/-- Reads a session description, which has a media section at least. -/
def read (text : List Char) : Except SdpError Description :=
  match addLines [] ((Text.lines text).map Line.ofText) with
  | .error e => .error e
  | .ok [] => .error (.missing .media)
  | .ok sections => .ok { media := sections.reverse }

/-- Reads a session description from a string. -/
def parse (text : String) : Except SdpError Description :=
  read text.toList

/-- Every mapping with its section, in order. -/
def mappings (d : Description) : List (Media × Mapping) :=
  d.media.flatMap (fun m => m.mappings.map (fun mapping => (m, mapping)))

/-- The stream of a mapping, if it can be reassembled. -/
def videoStream? (m : Media) (mapping : Mapping) : Option VideoStream :=
  mapping.codec?.map (fun codec =>
    { payloadType := mapping.payloadType, codec, clockRate := mapping.clockRate,
      control := m.control })

/-- The payload types that can be reassembled. -/
def videoStreams (d : Description) : List VideoStream :=
  d.mappings.filterMap (fun (m, mapping) => videoStream? m mapping)

/-- The payload types that cannot. -/
def unsupportedStreams (d : Description) : List UnsupportedStream :=
  (d.mappings.filter (fun (_, mapping) => mapping.codec?.isNone)).map (fun (m, mapping) =>
    { kind := m.kind, payloadType := mapping.payloadType, encoding := mapping.encoding })

end Description

end RtpReassembly.Sdp
