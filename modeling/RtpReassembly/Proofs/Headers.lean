import RtpReassembly.Proofs.Wire
import RtpReassembly.Proofs.Records

/-!
# Headers and their octets

Every part of a header has one form on the wire, so reading is the inverse of
writing in both directions: what is read is well-formed, and written again it is
what stood at the front of the datagram.

* `takeWords?_eq_some_iff`, `takeExtension?_eq_some_iff`: the parts of variable
  length;
* `Header.read_eq_ok_iff`: a header and what stands behind it;
* `Header.decode_eq_ok_iff` is the main statement.
-/

namespace RtpReassembly.Rtp

/-- Words are taken off exactly where they were put. -/
theorem takeWords?_eq_some_iff {count : Nat} {b rest : Bytes} {words : List UInt32} :
    takeWords? count b = some (words, rest) ↔
      words.length = count ∧ b = words.flatMap Bytes.be32 ++ rest := by
  constructor
  · intro h
    fun_induction takeWords? count b generalizing words with
    | case1 b =>
        obtain ⟨rfl, rfl⟩ := Prod.mk.inj (Option.some.inj h)
        exact ⟨rfl, rfl⟩
    | case2 count o₀ o₁ o₂ o₃ behind words' rest' hrest ih =>
        obtain ⟨rfl, rfl⟩ := Prod.mk.inj (Option.some.inj h)
        obtain ⟨hlength, rfl⟩ := ih hrest
        exact ⟨congrArg (· + 1) hlength, by simp [Bytes.be32_word32]⟩
    | case3 => simp at h
    | case4 => simp at h
  · rintro ⟨rfl, rfl⟩
    exact takeWords?_flatMap words rest

/-- An extension with data of whole words, which its count can tell. -/
def Extension.Whole (e : Extension) : Prop :=
  e.data.length = e.words * 4 ∧ e.words < 2 ^ 16

/-- An extension is whole exactly if its data are words, and no more than sixteen
bits can count. -/
theorem Extension.whole_iff {e : Extension} :
    e.Whole ↔ 4 ∣ e.data.length ∧ e.data.length ≤ 65535 * 4 := by
  unfold Whole words
  omega

/-- An extension is taken off exactly where it was put. -/
theorem takeExtension?_eq_some_iff {b rest : Bytes} {e : Extension} :
    takeExtension? b = some (e, rest) ↔ e.Whole ∧ b = e.encode ++ rest := by
  constructor
  · intro h
    unfold takeExtension? at h
    split at h
    · rename_i p q hi lo behind
      split at h
      · rename_i data rest' hsplit
        obtain ⟨rfl, rfl⟩ := Prod.mk.inj (Option.some.inj h)
        obtain ⟨rfl, hlength⟩ := Bytes.splitExact?_eq_some_iff.mp hsplit
        have hbound := (Bytes.word16 hi lo).toNat_lt
        -- the count that was read is that of the data
        have hwords : Extension.words ⟨Bytes.word16 p q, data⟩ = (Bytes.word16 hi lo).toNat := by
          simp only [Extension.words]
          omega
        refine ⟨⟨?_, ?_⟩, ?_⟩
        · rw [hwords, hlength]
        · rw [hwords]
          exact hbound
        · simp [Extension.encode, hwords, hlength, Bytes.be16_word16]
      · simp at h
    · simp at h
  · rintro ⟨⟨hdata, hwords⟩, rfl⟩
    exact takeExtension?_encode hdata hwords rest

/-- So is what may be an extension, or none. -/
theorem takeOptionalExtension?_eq_some_iff {isSet : Bool} {b rest : Bytes}
    {extension : Option Extension} :
    takeOptionalExtension? isSet b = some (extension, rest) ↔
      extension.isSome = isSet ∧ (∀ e ∈ extension, e.Whole) ∧
        b = (extension.map Extension.encode).getD [] ++ rest := by
  cases isSet with
  | false => cases extension <;> simp [takeOptionalExtension?, eq_comm]
  | true => cases extension <;> simp [takeOptionalExtension?, takeExtension?_eq_some_iff]

/-- The first octet is made of what is read of it. -/
theorem firstOctet_of_fields : ∀ b : UInt8,
    (((b >>> 6) &&& 3) <<< 6) ||| flag 0x20 (b &&& 0x20 != 0) ||| flag 0x10 (b &&& 0x10 != 0) |||
      (UInt8.ofNat (b &&& 0x0F).toNat &&& 0x0F) = b ∧ (b &&& 0x0F).toNat ≤ 15 :=
  forall_octet (by decide +kernel)

/-- So is the second. -/
theorem secondOctet_of_fields : ∀ b : UInt8,
    flag 0x80 (b &&& 0x80 != 0) ||| (b &&& 0x7F &&& 0x7F) = b ∧ b &&& 0x7F < 128 :=
  forall_octet (by decide +kernel)

/-- **What is read is what was written.** -/
theorem Header.read_eq_ok_iff {b rest : Bytes} {h : Header} :
    Header.read b = .ok (h, rest) ↔ h.WellFormed ∧ b = h.encode ++ rest := by
  constructor
  · intro hread
    unfold Header.read at hread
    split at hread
    · rename_i b0 b1 s0 s1 t0 t1 t2 t3 r0 r1 r2 r3 afterFixed
      split at hread
      · simp at hread
      · rename_i hversion
        split at hread
        · simp at hread
        · rename_i csrcs afterCsrcs hwords
          split at hread
          · simp at hread
          · rename_i extension rest' hextension
            obtain ⟨rfl, rfl⟩ := Prod.mk.inj (Except.ok.inj hread)
            obtain ⟨hcount, rfl⟩ := takeWords?_eq_some_iff.mp hwords
            obtain ⟨hset, hwhole, rfl⟩ := takeOptionalExtension?_eq_some_iff.mp hextension
            obtain ⟨hfirst, hfew⟩ := firstOctet_of_fields b0
            obtain ⟨hsecond, htype⟩ := secondOctet_of_fields b1
            have hcsrcs : csrcs.length ≤ 15 := by omega
            refine ⟨⟨not_not.mp hversion, htype, hcsrcs, hwhole⟩, ?_⟩
            simp only [Header.encode, Header.firstOctet, Header.secondOctet, hcount, hset, hfirst,
              hsecond, List.take_of_length_le hcsrcs, Bytes.be16_word16, Bytes.be32_word32,
              List.cons_append, List.nil_append, List.append_assoc]
    · simp at hread
  · rintro ⟨wf, rfl⟩
    exact Header.read_encode wf rest

/-- **Reading and writing headers are inverse to each other.**  A header is found at
the front of a datagram, and the rest from `off` on, exactly if it has a form on the
wire of its own, that form is `off` octets long, and these are the first of the
datagram.  Padding, marker and what follows may be anything. -/
theorem Header.decode_eq_ok_iff {b : Bytes} {h : Header} {off : Nat} :
    Header.decode b = .ok (h, off) ↔
      (h.version = 2 ∧ h.payloadType < 128 ∧ h.csrcs.length ≤ 15 ∧
        ∀ e ∈ h.extension, 4 ∣ e.data.length ∧ e.data.length ≤ 65535 * 4) ∧
      h.encode.length = off ∧ b.take off = h.encode := by
  have hwellFormed : h.WellFormed ↔ h.version = 2 ∧ h.payloadType < 128 ∧
      h.csrcs.length ≤ 15 ∧ ∀ e ∈ h.extension, 4 ∣ e.data.length ∧ e.data.length ≤ 65535 * 4 := by
    simp only [← Extension.whole_iff]
    exact ⟨fun ⟨version, type, csrcs, extension⟩ => ⟨version, type, csrcs, extension⟩,
      fun ⟨version, type, csrcs, extension⟩ => ⟨version, type, csrcs, extension⟩⟩
  rw [← hwellFormed]
  unfold Header.decode
  constructor
  · intro hdecode
    cases hread : Header.read b with
    | error e => simp [hread] at hdecode
    | ok parts =>
        obtain ⟨header, rest⟩ := parts
        obtain ⟨wf, rfl⟩ := Header.read_eq_ok_iff.mp hread
        simp only [hread, List.length_append, Nat.add_sub_cancel, Except.ok.injEq,
          Prod.mk.injEq] at hdecode
        obtain ⟨rfl, rfl⟩ := hdecode
        exact ⟨wf, rfl, List.take_left⟩
  · rintro ⟨wf, rfl, hfront⟩
    have hb : b = h.encode ++ b.drop h.encode.length := by
      conv_lhs => rw [← List.take_append_drop h.encode.length b, hfront]
    have hlength := congrArg List.length hb
    rw [List.length_append] at hlength
    rw [Header.read_eq_ok_iff.mpr ⟨wf, hb⟩]
    simp only [Except.ok.injEq, Prod.mk.injEq, true_and]
    omega

end RtpReassembly.Rtp
