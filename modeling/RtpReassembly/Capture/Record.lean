import RtpReassembly.Bytes

/-!
# Capture records

A capture file is a string of records.  A record has a head of 24 octets,
version, kind and body length of four octets each, the capture time of eight
and four reserved, and then its body.

* `Record.fields` lists what is written for a record, and `Record.encode` joins
  it;
* `Head.ofBytes?` reads a head and `Head.check` says whether its record can be
  read.
-/

namespace RtpReassembly.Capture

/-- The version of the format. -/
def version : UInt32 := 1

/-- Octets of a record's head. -/
def headLength : Nat := 24

/-- Octets that a body has at most; a greater length is taken for garbage. -/
def maxBodyLength : Nat := 16 * 1024 * 1024

/-- What a record holds. -/
inductive Kind
  /-- The mark at the start of a capture. -/
  | fileHeader
  /-- A session description. -/
  | sdp
  /-- A datagram. -/
  | rtp
  deriving DecidableEq, Repr

namespace Kind

/-- The number of a kind in a head. -/
def number : Kind → UInt32
  | .fileHeader => 1
  | .sdp => 2
  | .rtp => 3

/-- The kind with a number. -/
def ofNumber? (n : UInt32) : Option Kind :=
  if n = 1 then some .fileHeader
  else if n = 2 then some .sdp
  else if n = 3 then some .rtp
  else none

/-- The name of a kind. -/
def name : Kind → String
  | .fileHeader => "FileHeader"
  | .sdp => "Sdp"
  | .rtp => "Rtp"

end Kind

/-- A record.  Its version is not a part of it: what is written has `Capture.version` in its
head, and a head with another version is refused by `Head.check`, so it is the version
of every record that is read. -/
structure Record where
  kind : Kind
  /-- When the body was captured. -/
  captureMs : UInt64
  body : Bytes
  deriving DecidableEq, Repr

/-- Why a capture cannot be read or written further. -/
inductive CaptureError
  /-- The device failed, for a reason of its own. -/
  | device (reason : String)
  | unknownKind (number : UInt32)
  | unsupportedVersion (version : UInt32)
  /-- The capture ends inside a record. -/
  | truncated (expected got : Nat)
  | bodyTooLarge (length : Nat)
  deriving DecidableEq, Repr

/-- The wording of an error. -/
def CaptureError.message : CaptureError → String
  | .device reason => s!"dump I/O error: {reason}"
  | .unknownKind number => s!"unknown dump record type {number}"
  | .unsupportedVersion version => s!"unsupported dump version {version}"
  | .truncated expected got => s!"truncated dump record: expected {expected} bytes, got {got}"
  | .bodyTooLarge length => s!"dump record body too large: {length} bytes"

namespace Record

/-- The text of a record in listings. -/
def describe (r : Record) : String :=
  s!"v={version} kind={r.kind.name} at={r.captureMs}ms len={r.body.length}"

/-- What is written for a record, field by field. -/
def fields (r : Record) : List Bytes :=
  [Bytes.be32 version, Bytes.be32 r.kind.number, Bytes.be32 (UInt32.ofNat r.body.length),
    Bytes.be64 r.captureMs, Bytes.be32 0, r.body]

/-- A record in a capture. -/
def encode (r : Record) : Bytes :=
  r.fields.flatten

end Record

/-- The head of a record, as it is found. -/
structure Head where
  version : UInt32
  kind : UInt32
  length : UInt32
  captureMs : UInt64
  deriving DecidableEq, Repr

namespace Head

/-- Reads a head of exactly 24 octets; the last four do not matter. -/
def ofBytes? : Bytes → Option Head
  | [v0, v1, v2, v3, k0, k1, k2, k3, l0, l1, l2, l3, h0, h1, h2, h3, m0, m1, m2, m3, _, _, _, _] =>
    some
      { version := Bytes.word32 v0 v1 v2 v3
        kind := Bytes.word32 k0 k1 k2 k3
        length := Bytes.word32 l0 l1 l2 l3
        captureMs := Bytes.word64 (Bytes.word32 h0 h1 h2 h3) (Bytes.word32 m0 m1 m2 m3) }
  | _ => none

/-- The kind of the record behind a head that can be read: version, kind and
length are checked in this order. -/
def check (h : Head) : Except CaptureError Kind :=
  if h.version ≠ Capture.version then .error (.unsupportedVersion h.version)
  else
    match Kind.ofNumber? h.kind with
    | none => .error (.unknownKind h.kind)
    | some kind =>
      if maxBodyLength < h.length.toNat then .error (.bodyTooLarge h.length.toNat) else .ok kind

end Head

end RtpReassembly.Capture
