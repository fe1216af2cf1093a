import RtpReassembly.Bytes

/-!
# UTF-8

Octets are decoded one at a time.  Between characters the decoder holds
nothing; inside one it holds the bits so far, the number of octets still owed
and the range of the next one, which for some lead octets is narrower than
that of a continuation octet.  An octet out of range ends an ill-formed
sequence there and is looked at again as the start of the next one, so each
longest start of a character that cannot be finished counts once.
-/

namespace RtpReassembly.Utf8

/-- A character begun and not ended. -/
structure Pending where
  bits : Nat
  owed : Nat
  low : Nat
  high : Nat

/-- What an octet between characters does: it is a character, opens one, or is
ill-formed. -/
inductive Lead
  | character (c : Char)
  | opens (p : Pending)
  | illFormed

/-- Classifies an octet between characters. -/
def lead (b : UInt8) : Lead :=
  let n := b.toNat
  if n < 0x80 then .character (Char.ofNat n)
  else if n < 0xC2 then .illFormed
  else if n < 0xE0 then .opens ⟨n % 32, 1, 0x80, 0xBF⟩
  else if n = 0xE0 then .opens ⟨n % 16, 2, 0xA0, 0xBF⟩
  else if n = 0xED then .opens ⟨n % 16, 2, 0x80, 0x9F⟩
  else if n < 0xF0 then .opens ⟨n % 16, 2, 0x80, 0xBF⟩
  else if n = 0xF0 then .opens ⟨n % 8, 3, 0x90, 0xBF⟩
  else if n < 0xF4 then .opens ⟨n % 8, 3, 0x80, 0xBF⟩
  else if n = 0xF4 then .opens ⟨n % 8, 3, 0x80, 0x8F⟩
  else .illFormed

/-- What an octet between characters yields, and the character it leaves open;
`none` in the list stands for an ill-formed sequence. -/
def start (b : UInt8) : List (Option Char) × Option Pending :=
  match lead b with
  | .character c => ([some c], none)
  | .opens p => ([], some p)
  | .illFormed => ([none], none)

/-- What the next octet yields when `held` is open. -/
def step (held : Option Pending) (b : UInt8) : List (Option Char) × Option Pending :=
  match held with
  | none => start b
  | some p =>
    if p.low ≤ b.toNat ∧ b.toNat ≤ p.high then
      let bits := p.bits * 64 + b.toNat % 64
      if p.owed = 1 then ([some (Char.ofNat bits)], none)
      else ([], some ⟨bits, p.owed - 1, 0x80, 0xBF⟩)
    else
      let (out, held) := start b
      (none :: out, held)

/-- The characters of octets that follow the open one, and a `none` for each
ill-formed sequence among them. -/
def decodeFrom (held : Option Pending) : Bytes → List (Option Char)
  | [] => if held.isSome then [none] else []
  | b :: bs =>
    let (out, held) := step held b
    out ++ decodeFrom held bs

/-- The text of octets, with U+FFFD for each ill-formed sequence. -/
def decodeLossy (b : Bytes) : List Char :=
  (decodeFrom none b).map (·.getD (Char.ofNat 0xFFFD))

/-- The text of well-formed octets. -/
def decode? (b : Bytes) : Option (List Char) :=
  (decodeFrom none b).mapM id

/-- The octets of a text. -/
def encode (s : String) : Bytes :=
  s.toUTF8.toList

end RtpReassembly.Utf8
