import RtpReassembly.Bytes

/-!
# Hexadecimal text

Lower-case digits; an octet has two, a number as many as are asked for.
-/

namespace RtpReassembly.Hex

/-- The digit of a value below sixteen. -/
def digit (n : Nat) : Char :=
  if n < 10 then Char.ofNat ('0'.toNat + n) else Char.ofNat ('a'.toNat + (n - 10))

/-- The two digits of an octet. -/
def octet (b : UInt8) : List Char :=
  [digit (b.toNat / 16), digit (b.toNat % 16)]

/-- Two digits an octet, nothing between them. -/
def ofBytes (b : Bytes) : String :=
  String.ofList (b.flatMap octet)

/-- The last `width` digits of `n`, with leading zeros. -/
def padded : Nat → Nat → List Char
  | 0, _ => []
  | width + 1, n => padded width (n / 16) ++ [digit (n % 16)]

end RtpReassembly.Hex
