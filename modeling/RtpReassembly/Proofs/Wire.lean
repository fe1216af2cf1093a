import RtpReassembly.Rtp.Packet
import Mathlib.Data.Fintype.Basic
import Mathlib.Algebra.Group.Nat.Defs

/-!
# Packets on the wire

What a sender writes, a receiver reads.

* `Header.read_encode`: a well-formed header is read back, and what follows it
  is left;
* `Packet.decode_simple`: so is a packet with a plain header.
-/

namespace RtpReassembly

/-- A property of octets can be checked one by one. -/
theorem forall_octet {P : UInt8 → Prop} (h : ∀ n : Fin 256, P (UInt8.ofNat n)) (b : UInt8) :
    P b := by
  simpa using h ⟨b.toNat, b.toNat_lt⟩

namespace Rtp

/-- A header that has a form on the wire of its own. -/
structure Header.WellFormed (h : Header) : Prop where
  version : h.version = 2
  payloadType : h.payloadType < 128
  csrcs : h.csrcs.length ≤ 15
  extension : ∀ e ∈ h.extension, e.data.length = e.words * 4 ∧ e.words < 2 ^ 16

/-- The first octet has the version, two flags and the number of sources. -/
theorem firstOctet_fields : ∀ (padding extension : Bool) (n : Fin 16),
    let b := (((2 : UInt8) &&& 3) <<< 6) ||| flag 0x20 padding ||| flag 0x10 extension |||
      (UInt8.ofNat n &&& 0x0F)
    b >>> 6 = 2 ∧ (b &&& 0x0F).toNat = n ∧ (b &&& 0x10 != 0) = extension ∧
      (b &&& 0x20 != 0) = padding := by
  decide +kernel

/-- The second octet has the marker and the payload type. -/
theorem secondOctet_fields : ∀ (marker : Bool) (n : Fin 256), UInt8.ofNat n < 128 →
    let b := flag 0x80 marker ||| (UInt8.ofNat n &&& 0x7F)
    (b &&& 0x80 != 0) = marker ∧ b &&& 0x7F = UInt8.ofNat n := by
  decide +kernel

/-- Words that were written one after the other are taken off again. -/
theorem takeWords?_flatMap (words : List UInt32) (rest : Bytes) :
    takeWords? words.length (words.flatMap Bytes.be32 ++ rest) = some (words, rest) := by
  induction words with
  | nil => rfl
  | cons x words ih =>
      simp only [List.length_cons, List.flatMap_cons, Bytes.be32, List.cons_append,
        List.nil_append, takeWords?]
      rw [ih, Bytes.word32_be32]

/-- An extension whose data are as many words as it says is taken off again. -/
theorem takeExtension?_encode {e : Extension} (hdata : e.data.length = e.words * 4)
    (hwords : e.words < 2 ^ 16) (rest : Bytes) :
    takeExtension? (e.encode ++ rest) = some (e, rest) := by
  have hlen : (UInt16.ofNat e.words).toNat = e.words := UInt16.toNat_ofNat_of_lt hwords
  have hsplit : Bytes.splitExact? (e.words * 4) (e.data ++ rest) = some (e.data, rest) :=
    Bytes.splitExact?_eq_some_iff.mpr ⟨rfl, hdata⟩
  simp only [Extension.encode, Bytes.be16, hdata, Nat.sub_self, List.replicate_zero,
    List.append_nil, List.cons_append, List.nil_append, takeExtension?, Bytes.word16_be16]
  rw [hlen, hsplit]

/-- **Headers read back.** -/
theorem Header.read_encode {h : Header} (wf : h.WellFormed) (rest : Bytes) :
    Header.read (h.encode ++ rest) = .ok (h, rest) := by
  obtain ⟨hfirst₁, hfirst₂, hfirst₃, hfirst₄⟩ :=
    firstOctet_fields h.padding h.extension.isSome ⟨h.csrcs.length, by have := wf.csrcs; omega⟩
  obtain ⟨hsecond₁, hsecond₂⟩ := secondOctet_fields h.marker
    ⟨h.payloadType.toNat, h.payloadType.toNat_lt⟩ (by simpa using wf.payloadType)
  have hextension : takeOptionalExtension? h.extension.isSome
      ((h.extension.map Extension.encode).getD [] ++ rest) = some (h.extension, rest) := by
    cases he : h.extension with
    | none => rfl
    | some e =>
        obtain ⟨hdata, hwords⟩ := wf.extension e he
        simp [takeOptionalExtension?, takeExtension?_encode hdata hwords]
  have htake : h.csrcs.take 15 = h.csrcs := List.take_of_length_le wf.csrcs
  have hversion := wf.version
  simp only [Header.encode, htake, Bytes.be16, Bytes.be32, List.cons_append, List.nil_append,
    List.append_assoc, Header.read]
  simp only [Header.firstOctet, Header.secondOctet, hversion]
  simp only [UInt8.ofNat_toNat] at hsecond₁ hsecond₂
  simp only [hfirst₁, hfirst₂, hfirst₃, hfirst₄, hsecond₁, hsecond₂, takeWords?_flatMap,
    hextension, Bytes.word16_be16, Bytes.word32_be32]
  rw [if_neg (by decide), ← hversion]

/-- **Packets read back**, if they have a plain header. -/
theorem Packet.decode_simple {payloadType : UInt8} (h : payloadType < 128) (marker : Bool)
    (seq : SeqNum) (timestamp ssrc : UInt32) (body : Bytes) :
    Packet.decode (Packet.simple payloadType marker seq timestamp ssrc body).raw =
      .ok (Packet.simple payloadType marker seq timestamp ssrc body) := by
  have wf : Header.WellFormed { payloadType, seq, timestamp, ssrc, marker, padding := false } :=
    ⟨rfl, h, Nat.zero_le 15, by simp⟩
  simp only [Packet.simple, Packet.make, Packet.decode, Header.read_encode wf]
  rfl

end Rtp

end RtpReassembly
