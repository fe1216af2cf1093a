import RtpReassembly.Proofs.Headers

/-!
# What a sender writes and a receiver reads

A sender writes fifteen sources at most and fills the data of an extension up to
whole words, so that is all that a receiver can read.  It reads that much if the
header counts what was written.  The count of extension words always does.  The
count of sources is that of all sources modulo sixteen, though, and for most
lists of more than fifteen it is too small: then sources stand where the receiver
looks for the extension and the body.

* `Header.firstOctet_of_count` and `Header.count_firstOctet`: what the first octet
  tells of the sources;
* `Header.encode_carried`: beside that, a header is written like what is left of it;
* `Packet.decode_make_iff` is the main statement.
-/

namespace RtpReassembly.Rtp

/-- The extension with its data filled up with zeros to a multiple of four octets. -/
def Extension.filled (e : Extension) : Extension :=
  { e with data := e.data ++ List.replicate ((4 - e.data.length % 4) % 4) 0 }

/-- What a header says on the wire: fifteen sources at most, and whole words in the
extension. -/
def Header.carried (h : Header) : Header :=
  { h with csrcs := h.csrcs.take 15, extension := h.extension.map Extension.filled }

namespace Extension

theorem length_filled (e : Extension) : e.filled.data.length = e.words * 4 := by
  simp only [filled, words, List.length_append, List.length_replicate]
  omega

theorem words_filled (e : Extension) : e.filled.words = e.words := by
  rw [words, length_filled]
  omega

/-- Filling up is what writing does anyway. -/
theorem encode_filled (e : Extension) : e.filled.encode = e.encode := by
  have hfill : e.words * 4 - e.data.length = (4 - e.data.length % 4) % 4 := by
    unfold words
    omega
  rw [encode, words_filled, length_filled, Nat.sub_self, encode, hfill]
  simp [filled]

/-- Its words can be counted in two octets. -/
theorem whole_filled {e : Extension} (h : e.data.length ≤ 65535 * 4) : e.filled.Whole := by
  refine ⟨by rw [length_filled, words_filled], ?_⟩
  rw [words_filled, words]
  omega

end Extension

/-- The four bits for the number of sources hold its remainder. -/
theorem ofNat_and_fifteen (n : Nat) :
    (UInt8.ofNat n &&& 0x0F) = (UInt8.ofNat (n % 16) &&& 0x0F) := by
  have hmask (m : Nat) : m &&& 15 = m % 16 := Nat.and_two_pow_sub_one_eq_mod m 4
  apply UInt8.toNat_inj.mp
  simp only [UInt8.toNat_and, UInt8.toNat_ofNat', UInt8.reduceToNat, hmask]
  omega

namespace Header

variable {h : Header}

/-- The first octet tells the number of sources modulo sixteen, and nothing else of
them. -/
theorem firstOctet_of_count {csrcs : List UInt32} {extension : Option Extension}
    (hcount : csrcs.length % 16 = h.csrcs.length % 16)
    (hextension : extension.isSome = h.extension.isSome) :
    firstOctet { h with csrcs, extension } = h.firstOctet := by
  simp only [firstOctet, hextension]
  rw [ofNat_and_fifteen csrcs.length, hcount, ← ofNat_and_fifteen]

/-- That number can be read off it. -/
theorem count_firstOctet (hversion : h.version = 2) :
    (h.firstOctet &&& 0x0F).toNat = h.csrcs.length % 16 := by
  obtain ⟨-, hcount, -, -⟩ := firstOctet_fields h.padding h.extension.isSome
    ⟨h.csrcs.length % 16, Nat.mod_lt _ (by decide)⟩
  rw [firstOctet, hversion, ofNat_and_fifteen]
  exact hcount

/-- The first octet counts the sources that are written exactly for these numbers. -/
theorem firstOctet_carried_iff (hversion : h.version = 2) :
    h.carried.firstOctet = h.firstOctet ↔ h.csrcs.length ≤ 15 ∨ h.csrcs.length % 16 = 15 := by
  have hwritten : h.carried.csrcs.length = min 15 h.csrcs.length := List.length_take
  constructor
  · intro hoctet
    have hcount := congrArg (fun b => (b &&& 0x0F).toNat) hoctet
    simp only [count_firstOctet hversion, count_firstOctet (h := h.carried) hversion, hwritten]
      at hcount
    omega
  · intro hfew
    have hcount : h.carried.csrcs.length % 16 = h.csrcs.length % 16 := by
      rw [hwritten]
      omega
    exact firstOctet_of_count hcount Option.isSome_map

/-- Behind the first octet a header is written like what it says on the wire. -/
theorem encode_carried (h : Header) :
    h.carried.encode = h.carried.firstOctet :: h.encode.tail := by
  have hextension :
      h.carried.extension.map Extension.encode = h.extension.map Extension.encode := by
    simp [carried, Function.comp_def, Extension.encode_filled]
  have hsources : h.carried.csrcs.take 15 = h.csrcs.take 15 := by simp [carried]
  simp only [encode, hextension, hsources, List.tail_cons]
  rfl

/-- Without an extension, the sources that are written and not counted stand behind a
header that has those that are. -/
theorem encode_of_extension_eq_none (hextension : h.extension = none) :
    h.encode = encode { h with csrcs := h.csrcs.take (h.csrcs.length % 16) } ++
      ((h.csrcs.take 15).drop (h.csrcs.length % 16)).flatMap Bytes.be32 := by
  have hle : h.csrcs.length % 16 ≤ h.csrcs.length := Nat.mod_le _ _
  have hoctet : firstOctet { h with csrcs := h.csrcs.take (h.csrcs.length % 16) } = h.firstOctet :=
    firstOctet_of_count (by rw [List.length_take_of_le hle, Nat.mod_mod]) rfl
  have hsources : h.csrcs.take 15 = (h.csrcs.take (h.csrcs.length % 16)).take 15 ++
      (h.csrcs.take 15).drop (h.csrcs.length % 16) := by
    rw [List.take_take, Nat.min_comm, ← List.take_take, List.take_append_drop]
  rw [encode, encode, hoctet, hextension]
  simp only [Option.map_none, Option.getD_none, List.append_nil, List.cons_append,
    List.append_assoc, ← List.flatMap_append]
  rw [← hsources]
  rfl

/-- What a header says on the wire can be read, if its version and type can. -/
theorem wellFormed_carried (hversion : h.version = 2) (htype : h.payloadType < 128)
    (hfits : ∀ e ∈ h.extension, e.data.length ≤ 65535 * 4) : h.carried.WellFormed := by
  refine ⟨hversion, htype, List.length_take_le _ _, ?_⟩
  intro e he
  obtain ⟨data, hdata, rfl⟩ := Option.map_eq_some_iff.mp he
  exact Extension.whole_filled (hfits data hdata)

end Header

/-- A well-formed header and a body are read back. -/
theorem Packet.decode_encode {h : Header} (wf : h.WellFormed) (hpadding : h.padding = false)
    (body : Bytes) : Packet.decode (h.encode ++ body) =
      .ok { header := h, raw := h.encode ++ body, body } := by
  simp [Packet.decode, Header.read_encode wf, hpadding, Packet.splitPadding?]

/-- A packet that was read has the octets of its header in front. -/
theorem Packet.prefix_of_decode {b : Bytes} {p : Packet} (h : Packet.decode b = .ok p) :
    p.header.encode <+: b := by
  unfold Packet.decode at h
  split at h
  · simp at h
  · rename_i header rest hread
    obtain ⟨-, rfl⟩ := Header.read_eq_ok_iff.mp hread
    split at h
    · simp at h
    · obtain rfl := Except.ok.inj h
      exact List.prefix_append _ _

/-- **What is sent is what is received, if the sources are counted**: the sources and
the extension as far as they are written, and the body.  Without an extension, the
sources that are written and not counted are received as octets in front of the
body. -/
theorem Packet.decode_make_iff {payloadType : UInt8} {extension : Option Extension}
    (htype : payloadType < 128) (hfits : ∀ e ∈ extension, e.data.length ≤ 65535 * 4)
    (marker : Bool) (seq : SeqNum) (timestamp ssrc : UInt32) (csrcs : List UInt32) (body : Bytes) :
    let sent := Packet.make { payloadType, marker, seq, timestamp, ssrc, csrcs, extension } body
    (Packet.decode sent.raw =
        .ok { header := { payloadType, marker, seq, timestamp, ssrc, csrcs := csrcs.take 15,
                          extension := extension.map Extension.filled },
              raw := sent.raw, body } ↔
      csrcs.length ≤ 15 ∨ csrcs.length % 16 = 15) ∧
    (extension = none → Packet.decode sent.raw =
        .ok { header := { payloadType, marker, seq, timestamp, ssrc,
                          csrcs := csrcs.take (csrcs.length % 16) },
              raw := sent.raw,
              body := ((csrcs.take 15).drop (csrcs.length % 16)).flatMap Bytes.be32 ++ body }) := by
  intro sent
  let header : Header := { payloadType, marker, seq, timestamp, ssrc, csrcs, extension }
  have hsent : sent.raw = header.encode ++ body := rfl
  have hwf : header.carried.WellFormed := Header.wellFormed_carried rfl htype hfits
  constructor
  · rw [hsent, ← Header.firstOctet_carried_iff (h := header) rfl]
    constructor
    · intro hdecode
      obtain ⟨rest, hfront⟩ := Packet.prefix_of_decode hdecode
      exact (List.cons.inj hfront).1
    · intro hoctet
      have hencode : header.encode = header.carried.encode := by
        rw [Header.encode_carried, hoctet]
        rfl
      rw [hencode]
      exact Packet.decode_encode hwf rfl body
  · rintro rfl
    let counted : Header := { header with csrcs := csrcs.take (csrcs.length % 16) }
    have hcount : counted.csrcs.length = csrcs.length % 16 :=
      List.length_take_of_le (Nat.mod_le _ _)
    have hcounted : counted.WellFormed := ⟨rfl, htype, by omega, by simp [counted, header]⟩
    have hencode := Header.encode_of_extension_eq_none (h := header) rfl
    rw [hsent, hencode, List.append_assoc]
    exact Packet.decode_encode hcounted rfl _

/-- Of thirty-one sources fifteen are written and counted; of seventeen fifteen are
written and one is counted. -/
theorem Packet.decode_make_iff_of_many :
    ((96 : UInt8) < 128 ∧
      ∀ e ∈ some ({ profile := 0xBEDE, data := [1, 2, 3, 4, 5] } : Extension),
        e.data.length ≤ 65535 * 4) ∧
    (let sent := Packet.make
       { payloadType := 96, marker := true, seq := 65535, timestamp := 9000, ssrc := 1,
         csrcs := (List.range 31).map UInt32.ofNat,
         extension := some { profile := 0xBEDE, data := [1, 2, 3, 4, 5] } } [0x41, 0x9A]
     Packet.decode sent.raw =
       .ok { header :=
               { payloadType := 96, marker := true, seq := 65535, timestamp := 9000, ssrc := 1,
                 csrcs := (List.range 15).map UInt32.ofNat,
                 extension := some { profile := 0xBEDE, data := [1, 2, 3, 4, 5, 0, 0, 0] } },
             raw := sent.raw, body := [0x41, 0x9A] }) ∧
    (let sent := Packet.make
       { payloadType := 96, seq := 0, timestamp := 0, ssrc := 1,
         csrcs := (List.range 17).map UInt32.ofNat } [0x41, 0x9A]
     Packet.decode sent.raw =
       .ok { header := { payloadType := 96, seq := 0, timestamp := 0, ssrc := 1, csrcs := [0] },
             raw := sent.raw,
             body := ((List.range 14).map (fun n => UInt32.ofNat (n + 1))).flatMap Bytes.be32 ++
               [0x41, 0x9A] }) :=
  ⟨⟨by decide, by simp⟩,
    (Packet.decode_make_iff (by decide) (by simp) true 65535 9000 1 _ _).1.mpr (.inr (by decide)),
    (@Packet.decode_make_iff 96 none (by decide) (by simp) false 0 0 1 _ _).2 rfl⟩

/-- A packet with sixteen sources is received without any, and with fifteen of them in
front of its body. -/
theorem Packet.sources_uncounted :
    ∃ p, Packet.decode (Packet.make
        { payloadType := 96, seq := 0, timestamp := 0, ssrc := 1,
          csrcs := (List.range 16).map (fun n => UInt32.ofNat (n + 1)) } [0x41, 0x9A]).raw = .ok p ∧
      p.header.csrcs = [] ∧
      p.body = ((List.range 15).map (fun n => UInt32.ofNat (n + 1))).flatMap Bytes.be32 ++
        [0x41, 0x9A] :=
  ⟨_, rfl, rfl, rfl⟩

end RtpReassembly.Rtp
