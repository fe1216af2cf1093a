import RtpReassembly.Bytes
import RtpReassembly.SeqNum

/-!
# RTP headers

The header of RFC 3550: twelve octets, up to fifteen contributing sources of
four octets each, and an optional extension counted in words of four octets.

* `Header.read` takes a header off the front of a datagram and gives what is
  left; `Header.decode` gives the offset instead.
* `Header.encode` writes a header.  The source count and the number of
  extension words are derived from the lists themselves; only fifteen sources
  are written, and extension data is filled up with zeros to whole words.
-/

namespace RtpReassembly.Rtp

/-- The generic header extension; only its length matters to reassembly. -/
structure Extension where
  profile : UInt16
  data : Bytes
  deriving DecidableEq, Repr

/-- Words of four octets that hold the data. -/
def Extension.words (e : Extension) : Nat :=
  (e.data.length + 3) / 4

/-- Octets on the wire, the four of its own header included. -/
def Extension.wireLength (e : Extension) : Nat :=
  4 + e.words * 4

/-- Profile, word count, and the data filled up to whole words. -/
def Extension.encode (e : Extension) : Bytes :=
  Bytes.be16 e.profile ++ Bytes.be16 (UInt16.ofNat e.words) ++ e.data ++
    List.replicate (e.words * 4 - e.data.length) 0

/-- A header.  The extension bit is set exactly when there is an extension. -/
structure Header where
  version : UInt8 := 2
  padding : Bool := false
  marker : Bool := false
  payloadType : UInt8
  seq : SeqNum
  timestamp : UInt32
  ssrc : UInt32
  csrcs : List UInt32 := []
  extension : Option Extension := none
  deriving DecidableEq, Repr

/-- Why a datagram is no RTP packet. -/
inductive DecodeError
  | tooShort (length : Nat)
  | badVersion (version : UInt8)
  | csrcsTooShort (count left : Nat)
  | extensionTooShort
  | paddingTooShort
  deriving DecidableEq, Repr

/-- The wording of an error. -/
def DecodeError.message : DecodeError → String
  | .tooShort n => s!"buffer too short for RTP header: {n} bytes"
  | .badVersion v => s!"bad RTP version: {v}"
  | .csrcsTooShort count left =>
    s!"CSRC count mismatch: expected {count}x4 bytes, but only {left} bytes remain"
  | .extensionTooShort => "RTP header extension too short"
  | .paddingTooShort => "padding bit set but payload shorter than padding count"

/-- Takes `count` words of four octets off the front. -/
def takeWords? : Nat → Bytes → Option (List UInt32 × Bytes)
  | 0, b => some ([], b)
  | count + 1, a :: b :: c :: d :: rest =>
    match takeWords? count rest with
    | some (ws, rest) => some (Bytes.word32 a b c d :: ws, rest)
    | none => none
  | _ + 1, _ => none

/-- Takes an extension off the front. -/
def takeExtension? : Bytes → Option (Extension × Bytes)
  | p :: q :: hi :: lo :: rest =>
    match Bytes.splitExact? ((Bytes.word16 hi lo).toNat * 4) rest with
    | some (data, rest) => some ({ profile := Bytes.word16 p q, data := data }, rest)
    | none => none
  | _ => none

/-- Takes an extension off the front if the extension bit is set. -/
def takeOptionalExtension? (isSet : Bool) (b : Bytes) : Option (Option Extension × Bytes) :=
  if isSet then (takeExtension? b).map (fun (e, rest) => (some e, rest)) else some (none, b)

/-- Takes a header off the front of a datagram.  The checks go from front to
back: the fixed part, the version, the sources, the extension. -/
def Header.read (b : Bytes) : Except DecodeError (Header × Bytes) :=
  match b with
  | b0 :: b1 :: s0 :: s1 :: t0 :: t1 :: t2 :: t3 :: r0 :: r1 :: r2 :: r3 :: afterFixed =>
    if b0 >>> 6 ≠ 2 then .error (.badVersion (b0 >>> 6))
    else
      match takeWords? (b0 &&& 0x0F).toNat afterFixed with
      | none => .error (.csrcsTooShort (b0 &&& 0x0F).toNat afterFixed.length)
      | some (csrcs, afterCsrcs) =>
        match takeOptionalExtension? (b0 &&& 0x10 != 0) afterCsrcs with
        | none => .error .extensionTooShort
        | some (extension, rest) =>
          .ok ({ version := b0 >>> 6
                 padding := b0 &&& 0x20 != 0
                 marker := b1 &&& 0x80 != 0
                 payloadType := b1 &&& 0x7F
                 seq := Bytes.word16 s0 s1
                 timestamp := Bytes.word32 t0 t1 t2 t3
                 ssrc := Bytes.word32 r0 r1 r2 r3
                 csrcs := csrcs
                 extension := extension }, rest)
  | _ => .error (.tooShort b.length)

/-- The header at the front of a datagram, and where what follows it starts. -/
def Header.decode (b : Bytes) : Except DecodeError (Header × Nat) :=
  match Header.read b with
  | .ok (h, rest) => .ok (h, b.length - rest.length)
  | .error e => .error e

/-- A flag as the bit of value `mask`. -/
def flag (mask : UInt8) (isSet : Bool) : UInt8 :=
  if isSet then mask else 0

/-- The first octet: version, padding, extension and source count.  The count
has four bits, so it is that of the list modulo sixteen. -/
def Header.firstOctet (h : Header) : UInt8 :=
  ((h.version &&& 3) <<< 6) ||| flag 0x20 h.padding ||| flag 0x10 h.extension.isSome |||
    (UInt8.ofNat h.csrcs.length &&& 0x0F)

/-- The second octet: marker and payload type. -/
def Header.secondOctet (h : Header) : UInt8 :=
  flag 0x80 h.marker ||| (h.payloadType &&& 0x7F)

/-- The header on the wire. -/
def Header.encode (h : Header) : Bytes :=
  h.firstOctet :: h.secondOctet ::
    (Bytes.be16 h.seq ++ Bytes.be32 h.timestamp ++ Bytes.be32 h.ssrc ++
      (h.csrcs.take 15).flatMap Bytes.be32 ++ (h.extension.map Extension.encode).getD [])

end RtpReassembly.Rtp
