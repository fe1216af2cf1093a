import RtpReassembly.AccessUnit
import RtpReassembly.Digest.Sha256
import RtpReassembly.Text.Utf8

/-!
# Fingerprints of reassembly

Two runs are compared by a hash over all access units in order.  Each unit
enters it as its codec's name, its time, its length and its payload, so that
the octets hashed tell the units.
-/

namespace RtpReassembly.Fingerprint

/-- What is hashed for a unit. -/
def encode (u : AccessUnit) : Bytes :=
  Utf8.encode u.codec.name ++ Bytes.be64 u.timestamp ++
    Bytes.be32 (UInt32.ofNat u.payload.length) ++ u.payload

/-- The hash after more units. -/
def addAll (h : Sha256.Running) (units : List AccessUnit) : Sha256.Running :=
  units.foldl (fun h u => h.update (encode u)) h

end RtpReassembly.Fingerprint
