import RtpReassembly.Bytes

/-!
# SHA-256

The hash function of FIPS 180-4.  A message is taken in pieces of any size: a
running hash keeps the octets that do not fill a block yet.

* `digest` hashes a whole message, and `Running` hashes one piece by piece.
-/

namespace RtpReassembly.Sha256

/-- The eight words of a hash value. -/
structure Words where
  a : UInt32
  b : UInt32
  c : UInt32
  d : UInt32
  e : UInt32
  f : UInt32
  g : UInt32
  h : UInt32
  deriving DecidableEq, Repr

/-- The hash value before any block. -/
def initial : Words :=
  { a := 0x6a09e667, b := 0xbb67ae85, c := 0x3c6ef372, d := 0xa54ff53a
    e := 0x510e527f, f := 0x9b05688c, g := 0x1f83d9ab, h := 0x5be0cd19 }

/-- The constants of the 64 rounds. -/
def roundConstants : List UInt32 :=
  [0x428a2f98, 0x71374491, 0xb5c0fbcf, 0xe9b5dba5, 0x3956c25b, 0x59f111f1, 0x923f82a4, 0xab1c5ed5,
    0xd807aa98, 0x12835b01, 0x243185be, 0x550c7dc3, 0x72be5d74, 0x80deb1fe, 0x9bdc06a7, 0xc19bf174,
    0xe49b69c1, 0xefbe4786, 0x0fc19dc6, 0x240ca1cc, 0x2de92c6f, 0x4a7484aa, 0x5cb0a9dc, 0x76f988da,
    0x983e5152, 0xa831c66d, 0xb00327c8, 0xbf597fc7, 0xc6e00bf3, 0xd5a79147, 0x06ca6351, 0x14292967,
    0x27b70a85, 0x2e1b2138, 0x4d2c6dfc, 0x53380d13, 0x650a7354, 0x766a0abb, 0x81c2c92e, 0x92722c85,
    0xa2bfe8a1, 0xa81a664b, 0xc24b8b70, 0xc76c51a3, 0xd192e819, 0xd6990624, 0xf40e3585, 0x106aa070,
    0x19a4c116, 0x1e376c08, 0x2748774c, 0x34b0bcb5, 0x391c0cb3, 0x4ed8aa4a, 0x5b9cca4f, 0x682e6ff3,
    0x748f82ee, 0x78a5636f, 0x84c87814, 0x8cc70208, 0x90befffa, 0xa4506ceb, 0xbef9a3f7, 0xc67178f2]

/-- Rotation to the right. -/
def rotate (x n : UInt32) : UInt32 :=
  (x >>> n) ||| (x <<< (32 - n))

/-- The mixing of a word into the schedule, from 15 places before. -/
def smallSigma0 (x : UInt32) : UInt32 :=
  rotate x 7 ^^^ rotate x 18 ^^^ (x >>> 3)

/-- The mixing of a word into the schedule, from two places before. -/
def smallSigma1 (x : UInt32) : UInt32 :=
  rotate x 17 ^^^ rotate x 19 ^^^ (x >>> 10)

/-- One round with its constant and its word of the schedule. -/
def round (s : Words) (k w : UInt32) : Words :=
  let mixE := rotate s.e 6 ^^^ rotate s.e 11 ^^^ rotate s.e 25
  let choice := (s.e &&& s.f) ^^^ ((~~~ s.e) &&& s.g)
  let first := s.h + mixE + choice + k + w
  let mixA := rotate s.a 2 ^^^ rotate s.a 13 ^^^ rotate s.a 22
  let majority := (s.a &&& s.b) ^^^ (s.a &&& s.c) ^^^ (s.b &&& s.c)
  { a := first + (mixA + majority), b := s.a, c := s.b, d := s.c
    e := s.d + first, f := s.e, g := s.f, h := s.g }

/-- Rounds with the given constants; `window` holds the next sixteen words of
the schedule, of which each round takes one and makes another. -/
def rounds (s : Words) (window : List UInt32) : List UInt32 → Words
  | [] => s
  | k :: ks =>
    match window with
    | [w0, w1, w2, w3, w4, w5, w6, w7, w8, w9, w10, w11, w12, w13, w14, w15] =>
      let w16 := smallSigma1 w14 + w9 + smallSigma0 w1 + w0
      rounds (round s k w0)
        [w1, w2, w3, w4, w5, w6, w7, w8, w9, w10, w11, w12, w13, w14, w15, w16] ks
    | _ => s

/-- The words of octets, four each. -/
def wordsOf : Bytes → List UInt32
  | a :: b :: c :: d :: rest => Bytes.word32 a b c d :: wordsOf rest
  | _ => []

/-- The hash value after a block of 64 octets. -/
def compress (s : Words) (block : Bytes) : Words :=
  let t := rounds s (wordsOf block) roundConstants
  { a := s.a + t.a, b := s.b + t.b, c := s.c + t.c, d := s.d + t.d
    e := s.e + t.e, f := s.f + t.f, g := s.g + t.g, h := s.h + t.h }

/-- Octets of a block. -/
def blockLength : Nat := 64

/-- The hash value after the whole blocks of some octets, and what is left of
them. -/
def absorb (s : Words) (b : Bytes) : Words × Bytes :=
  match _h : Bytes.splitExact? blockLength b with
  | some (block, rest) => absorb (compress s block) rest
  | none => (s, b)
termination_by b.length
decreasing_by
  obtain ⟨rfl, hlen⟩ := Bytes.splitExact?_eq_some_iff.mp _h
  simp only [List.length_append, hlen, blockLength]
  omega

/-- What follows a message of `length` octets: a set bit, zeros, and the
length in bits, so that all together fill whole blocks. -/
def paddingFor (length : Nat) : Bytes :=
  0x80 :: List.replicate ((119 - length % 64) % 64) 0 ++ Bytes.be64 (UInt64.ofNat (length * 8))

/-- The octets of a hash value. -/
def Words.octets (s : Words) : Bytes :=
  [s.a, s.b, s.c, s.d, s.e, s.f, s.g, s.h].flatMap Bytes.be32

/-- The hash of a message. -/
def digest (message : Bytes) : Bytes :=
  (absorb initial (message ++ paddingFor message.length)).1.octets

/-- The hash of a message of which only a part has come. -/
structure Running where
  words : Words := initial
  /-- The octets that do not fill a block yet. -/
  pending : Bytes := []
  /-- Octets that have come. -/
  length : Nat := 0

namespace Running

/-- Takes the next octets of the message. -/
def update (r : Running) (b : Bytes) : Running :=
  let (words, pending) := absorb r.words (r.pending ++ b)
  { words, pending, length := r.length + b.length }

/-- The hash of the message if no more comes. -/
def finish (r : Running) : Bytes :=
  (absorb r.words (r.pending ++ paddingFor r.length)).1.octets

end Running

end RtpReassembly.Sha256
