import RtpReassembly.Sdp.Description

/-!
# Writing session descriptions

A description is written line by line: for each section its `m=` line, one
`a=rtpmap:` line for each mapping, and an `a=control:` line if there is an
address.  Only what reading keeps is written, so a description that was read
is read again from what is written.
-/

namespace RtpReassembly.Sdp

/-- The value of an `a=rtpmap:` line. -/
def Mapping.render (m : Mapping) : List Char :=
  Text.decimal m.payloadType.toNat ++ ' ' :: m.encoding.toList ++
    '/' :: Text.decimal m.clockRate.toNat ++
      (m.params.map (fun params => '/' :: Text.decimal params.toNat)).getD []

/-- The value of an `m=` line. -/
def Media.render (m : Media) : List Char :=
  m.kind.name.toList ++ ' ' :: Text.decimal m.port.toNat ++ ' ' :: m.proto.toList ++
    m.formats.flatMap (fun format => ' ' :: Text.decimal format.toNat)

/-- The lines of a section. -/
def Media.lines (m : Media) : List (List Char) :=
  ("m=".toList ++ m.render) ::
    m.mappings.map (fun mapping => "a=rtpmap:".toList ++ mapping.render) ++
      (m.control.map (fun value => "a=control:".toList ++ value.toList)).toList

/-- The text of a description. -/
def Description.render (d : Description) : List Char :=
  Text.unlines (d.media.flatMap Media.lines)

end RtpReassembly.Sdp
