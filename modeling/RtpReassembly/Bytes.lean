/-!
# Octet strings

Octet strings are lists, so that a format is read by matching on its first
octets and written by concatenation.  Words are big-endian, as everywhere on
the wire and in capture files:

* `be16`, `be32`, `be64` write a word, `word16`, `word32`, `word64` read one,
  and `word16_be16`, `word32_be32`, `word64_be64` say that reading undoes
  writing;
* `splitExact?` cuts off a stated number of octets and refuses a string that
  has fewer, so a declared length can never reach past the end.
-/

namespace RtpReassembly

/-- A string of octets. -/
abbrev Bytes := List UInt8

namespace Bytes

/-- The 16-bit word with the given octets, high one first. -/
def word16 (a b : UInt8) : UInt16 :=
  UInt16.ofNat (a.toNat * 256 + b.toNat)

/-- The 32-bit word with the given octets, high one first. -/
def word32 (a b c d : UInt8) : UInt32 :=
  UInt32.ofNat (((a.toNat * 256 + b.toNat) * 256 + c.toNat) * 256 + d.toNat)

/-- The 64-bit word with the given 32-bit halves, high one first. -/
def word64 (high low : UInt32) : UInt64 :=
  UInt64.ofNat (high.toNat * 0x100000000 + low.toNat)

/-- The two octets of a 16-bit word. -/
def be16 (x : UInt16) : Bytes :=
  [UInt8.ofNat (x.toNat / 256), UInt8.ofNat x.toNat]

/-- The four octets of a 32-bit word. -/
def be32 (x : UInt32) : Bytes :=
  [UInt8.ofNat (x.toNat / 0x1000000), UInt8.ofNat (x.toNat / 0x10000),
    UInt8.ofNat (x.toNat / 0x100), UInt8.ofNat x.toNat]

/-- The eight octets of a 64-bit word. -/
def be64 (x : UInt64) : Bytes :=
  be32 (UInt32.ofNat (x.toNat / 0x100000000)) ++ be32 (UInt32.ofNat x.toNat)

/-- A word of 16 bits is read back from its octets. -/
theorem word16_be16 (x : UInt16) :
    word16 (UInt8.ofNat (x.toNat / 256)) (UInt8.ofNat x.toNat) = x := by
  apply UInt16.toNat_inj.mp
  have := x.toNat_lt
  simp only [word16, UInt16.toNat_ofNat', UInt8.toNat_ofNat']
  omega

/-- A word of 32 bits is read back from its octets. -/
theorem word32_be32 (x : UInt32) :
    word32 (UInt8.ofNat (x.toNat / 0x1000000)) (UInt8.ofNat (x.toNat / 0x10000))
      (UInt8.ofNat (x.toNat / 0x100)) (UInt8.ofNat x.toNat) = x := by
  apply UInt32.toNat_inj.mp
  have := x.toNat_lt
  simp only [word32, UInt32.toNat_ofNat', UInt8.toNat_ofNat']
  omega

/-- A word of 64 bits is read back from its halves. -/
theorem word64_be64 (x : UInt64) :
    word64 (UInt32.ofNat (x.toNat / 0x100000000)) (UInt32.ofNat x.toNat) = x := by
  apply UInt64.toNat_inj.mp
  have := x.toNat_lt
  simp only [word64, UInt64.toNat_ofNat', UInt32.toNat_ofNat']
  omega

/-- Cuts `b` after its first `n` octets; `none` if it has fewer. -/
def splitExact? (n : Nat) (b : Bytes) : Option (Bytes × Bytes) :=
  if (b.take n).length = n then some (b.take n, b.drop n) else none

/-- A cut gives exactly the two parts, of which the first has the stated length.
-/
theorem splitExact?_eq_some_iff {n : Nat} {b front back : Bytes} :
    splitExact? n b = some (front, back) ↔ b = front ++ back ∧ front.length = n := by
  unfold splitExact?
  constructor
  · intro h
    split at h
    · rename_i hlen
      simp only [Option.some.injEq, Prod.mk.injEq] at h
      obtain ⟨rfl, rfl⟩ := h
      exact ⟨(List.take_append_drop n b).symm, hlen⟩
    · simp at h
  · rintro ⟨rfl, rfl⟩
    simp

/-- A cut is refused exactly if the string is shorter than stated. -/
theorem splitExact?_eq_none_iff {n : Nat} {b : Bytes} :
    splitExact? n b = none ↔ b.length < n := by
  unfold splitExact?
  split
  · rename_i h
    rw [List.length_take] at h
    simp only [reduceCtorEq, false_iff]
    omega
  · rename_i h
    rw [List.length_take] at h
    simp only [true_iff]
    omega

end Bytes

end RtpReassembly
