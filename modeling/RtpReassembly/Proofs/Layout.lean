import RtpReassembly.Proofs.Checked.Datagram

/-!
# The layout of a datagram

A datagram is five parts in a row: twelve octets, the sources, the extension, the
body and the padding.  The first octet says how many sources there are and which
of the other parts, and the extension and the padding say how long they are.  No
part is looked for: each begins where the one before it ends.

* `Layout` has the parts, `Layout.Valid` is what they must say of themselves and
  `Layout.packet` what they mean;
* `Datagram.checks` are the tests that a datagram can fail, by offsets into it,
  and `Datagram.firstFailure` is the first that it does;
* `Packet.decode_ok_iff_layout` and `Packet.decode_error_iff_firstFailure`: exactly the valid
  layouts are accepted, and all else is refused for its first failure;
* `Packet.decode_iff_layout` has both in one.
-/

namespace RtpReassembly.Rtp

/-- The octet at an offset; zero if there is none. -/
def octetAt (b : Bytes) (i : Nat) : UInt8 :=
  b.getD i 0

/-- The word of two octets at an offset. -/
def pairAt (b : Bytes) (i : Nat) : UInt16 :=
  Bytes.word16 (octetAt b i) (octetAt b (i + 1))

/-- The word of four octets at an offset. -/
def quadAt (b : Bytes) (i : Nat) : UInt32 :=
  Bytes.word32 (octetAt b i) (octetAt b (i + 1)) (octetAt b (i + 2)) (octetAt b (i + 3))

@[simp] theorem octetAt_cons_zero (x : UInt8) (b : Bytes) : octetAt (x :: b) 0 = x := rfl

@[simp] theorem octetAt_cons_succ (x : UInt8) (b : Bytes) (i : Nat) :
    octetAt (x :: b) (i + 1) = octetAt b i := rfl

theorem octetAt_append {front back : Bytes} {i : Nat} (h : i < front.length) :
    octetAt (front ++ back) i = octetAt front i := by
  simp [octetAt, List.getD_eq_getElem?_getD, List.getElem?_append_left h]

theorem octetAt_append_add (front back : Bytes) (i : Nat) :
    octetAt (front ++ back) (front.length + i) = octetAt back i := by
  simp [octetAt, List.getD_eq_getElem?_getD, List.getElem?_append_right]

namespace Datagram

/-- The version that a datagram states. -/
def version (b : Bytes) : UInt8 :=
  octetAt b 0 >>> 6

/-- Whether it says that it has padding. -/
def isPadded (b : Bytes) : Bool :=
  octetAt b 0 &&& 0x20 != 0

/-- Whether it says that it has an extension. -/
def isExtended (b : Bytes) : Bool :=
  octetAt b 0 &&& 0x10 != 0

/-- How many sources it says it has. -/
def sourceCount (b : Bytes) : Nat :=
  (octetAt b 0 &&& 0x0F).toNat

/-- An extension has a header of four octets, of which the last two count the words
behind it; where none is announced there is none. -/
def IsExtension (isSet : Bool) (part : Bytes) : Prop :=
  if isSet then part.length = 4 + 4 * (pairAt part 2).toNat else part = []

/-- What an extension means. -/
def extensionOf (isSet : Bool) (part : Bytes) : Option Extension :=
  if isSet then some { profile := pairAt part 0, data := part.drop 4 } else none

/-- The last octet of padding is the count of all of them; where none is announced
there is none. -/
def IsPadding (isSet : Bool) (part : Bytes) : Prop :=
  if isSet then 1 ≤ part.length ∧ part.length ≤ 255 ∧
    part.getLast? = some (UInt8.ofNat part.length)
  else part = []

end Datagram

/-- The parts of a datagram in the order in which they stand. -/
structure Layout where
  fixed : Bytes
  sources : Bytes
  extension : Bytes
  body : Bytes
  padding : Bytes
  deriving DecidableEq, Repr

namespace Layout

/-- The octets of all parts. -/
def octets (l : Layout) : Bytes :=
  l.fixed ++ (l.sources ++ (l.extension ++ (l.body ++ l.padding)))

/-- Octets in front of the body. -/
def headerLength (l : Layout) : Nat :=
  l.fixed.length + l.sources.length + l.extension.length

/-- The parts in front of the body are as long as they say. -/
structure Headed (l : Layout) : Prop where
  fixed : l.fixed.length = 12
  version : Datagram.version l.fixed = 2
  sources : l.sources.length = 4 * Datagram.sourceCount l.fixed
  extension : Datagram.IsExtension (Datagram.isExtended l.fixed) l.extension

/-- All parts are. -/
structure Valid (l : Layout) : Prop extends l.Headed where
  padding : Datagram.IsPadding (Datagram.isPadded l.fixed) l.padding

/-- The header that the parts in front of the body mean. -/
def header (l : Layout) : Header where
  version := Datagram.version l.fixed
  padding := Datagram.isPadded l.fixed
  marker := octetAt l.fixed 1 &&& 0x80 != 0
  payloadType := octetAt l.fixed 1 &&& 0x7F
  seq := pairAt l.fixed 2
  timestamp := quadAt l.fixed 4
  ssrc := quadAt l.fixed 8
  csrcs := (List.range (Datagram.sourceCount l.fixed)).map fun i => quadAt l.sources (4 * i)
  extension := Datagram.extensionOf (Datagram.isExtended l.fixed) l.extension

/-- The packet that the parts mean. -/
def packet (l : Layout) : Packet where
  header := l.header
  raw := l.octets
  body := l.body
  paddingCount := UInt8.ofNat l.padding.length

end Layout

/-! ## The parts, one by one -/

/-- The words of whole quads are written as these quads. -/
theorem flatMap_be32_quads {count : Nat} {part : Bytes} (h : part.length = 4 * count) :
    ((List.range count).map fun i => quadAt part (4 * i)).flatMap Bytes.be32 = part := by
  induction count generalizing part with
  | zero => simp [List.length_eq_zero_iff.mp h]
  | succ count ih =>
      obtain ⟨b₀, b₁, b₂, b₃, rest, rfl, -⟩ := exists_quad (b := part) (n := 0) (by omega)
      have hrest : rest.length = 4 * count := by
        simp only [List.length_cons] at h
        omega
      have hshift (i : Nat) :
          quadAt (b₀ :: b₁ :: b₂ :: b₃ :: rest) (4 * (i + 1)) = quadAt rest (4 * i) := rfl
      have hfirst : quadAt (b₀ :: b₁ :: b₂ :: b₃ :: rest) 0 = Bytes.word32 b₀ b₁ b₂ b₃ := rfl
      simp only [List.range_succ_eq_map, List.map_cons, List.map_map, Function.comp_def, hshift,
        Nat.mul_zero, hfirst, List.flatMap_cons, Bytes.be32_word32, ih hrest]
      rfl

/-- The sources are the words of the octets that are taken off for them. -/
theorem takeWords?_eq_some_iff_part {count : Nat} {b rest : Bytes} {words : List UInt32} :
    takeWords? count b = some (words, rest) ↔
      ∃ part, b = part ++ rest ∧ part.length = 4 * count ∧
        words = (List.range count).map fun i => quadAt part (4 * i) := by
  have hquads {part : Bytes} (hpart : part.length = 4 * count) : takeWords? count (part ++ rest) =
      some ((List.range count).map fun i => quadAt part (4 * i), rest) :=
    takeWords?_eq_some_iff.mpr ⟨by simp, by rw [flatMap_be32_quads hpart]⟩
  constructor
  · intro h
    obtain ⟨hcount, rfl⟩ := takeWords?_eq_some_iff.mp h
    have hpart : (words.flatMap Bytes.be32).length = 4 * count := by
      simp [List.length_flatMap, Bytes.be32, hcount, Nat.mul_comm]
    refine ⟨_, rfl, hpart, ?_⟩
    rw [hquads hpart] at h
    exact (Prod.mk.inj (Option.some.inj h)).1.symm
  · rintro ⟨part, rfl, hpart, rfl⟩
    exact hquads hpart

/-- The octets that are taken off for an extension say how many they are. -/
theorem takeExtension?_eq_some_iff_part {b rest : Bytes} {e : Extension} :
    takeExtension? b = some (e, rest) ↔
      ∃ part, b = part ++ rest ∧ part.length = 4 + 4 * (pairAt part 2).toNat ∧
        e = { profile := pairAt part 0, data := part.drop 4 } := by
  constructor
  · intro h
    unfold takeExtension? at h
    split at h
    · rename_i p q hi lo behind
      split at h
      · rename_i data rest' hsplit
        obtain ⟨rfl, rfl⟩ := Prod.mk.inj (Option.some.inj h)
        obtain ⟨rfl, hlength⟩ := Bytes.splitExact?_eq_some_iff.mp hsplit
        refine ⟨p :: q :: hi :: lo :: data, rfl, ?_, rfl⟩
        simp only [pairAt, octetAt_cons_succ, octetAt_cons_zero, List.length_cons]
        omega
      · simp at h
    · simp at h
  · rintro ⟨part, rfl, hpart, rfl⟩
    obtain ⟨p, q, hi, lo, data, rfl, -⟩ := exists_quad (b := part) (n := 0) (by omega)
    simp only [pairAt, octetAt_cons_succ, octetAt_cons_zero, List.length_cons] at hpart
    have hsplit : Bytes.splitExact? ((Bytes.word16 hi lo).toNat * 4) (data ++ rest) =
        some (data, rest) := Bytes.splitExact?_eq_some_iff.mpr ⟨rfl, by omega⟩
    simp only [List.cons_append, takeExtension?, hsplit]
    rfl

/-- An extension is cut off exactly if its octets end before it does. -/
theorem takeExtension?_eq_none_iff {b : Bytes} :
    takeExtension? b = none ↔ b.length < 4 + 4 * (pairAt b 2).toNat := by
  match b with
  | [] | [_] | [_, _] | [_, _, _] =>
      simp only [takeExtension?, List.length_cons, List.length_nil, true_iff]
      omega
  | p :: q :: hi :: lo :: rest =>
      have hwords : pairAt (p :: q :: hi :: lo :: rest) 2 = Bytes.word16 hi lo := rfl
      rw [takeExtension?, hwords]
      split
      · rename_i data rest' hsplit
        obtain ⟨rfl, hlength⟩ := Bytes.splitExact?_eq_some_iff.mp hsplit
        simp only [reduceCtorEq, List.length_cons, List.length_append, false_iff]
        omega
      · rename_i hsplit
        have := Bytes.splitExact?_eq_none_iff.mp hsplit
        simp only [List.length_cons, true_iff]
        omega

/-- What a reader takes off is exactly the part that an extension occupies, if one
is announced. -/
theorem takeOptionalExtension?_eq_some_iff_part {isSet : Bool} {b rest : Bytes}
    {extension : Option Extension} :
    takeOptionalExtension? isSet b = some (extension, rest) ↔
      ∃ part, b = part ++ rest ∧ Datagram.IsExtension isSet part ∧
        extension = Datagram.extensionOf isSet part := by
  unfold Datagram.IsExtension Datagram.extensionOf
  cases isSet with
  | false => simp [takeOptionalExtension?, eq_comm, and_comm]
  | true =>
      cases extension with
      | none => simp [takeOptionalExtension?]
      | some e => simp [takeOptionalExtension?, takeExtension?_eq_some_iff_part]

/-- Padding is what its last octet counts. -/
theorem splitPadding?_eq_some_iff {isPadded : Bool} {rest body : Bytes} {count : UInt8} :
    Packet.splitPadding? isPadded rest = some (body, count) ↔
      ∃ padding, rest = body ++ padding ∧ count = UInt8.ofNat padding.length ∧
        Datagram.IsPadding isPadded padding := by
  unfold Datagram.IsPadding
  cases isPadded with
  | false =>
      simp only [Packet.splitPadding?, Bool.false_eq_true, if_false, Option.some.injEq,
        Prod.mk.injEq]
      constructor
      · rintro ⟨rfl, rfl⟩
        exact ⟨[], by simp, rfl, rfl⟩
      · rintro ⟨_, rfl, rfl, rfl⟩
        exact ⟨by simp, rfl⟩
  | true =>
      simp only [Packet.splitPadding?, if_true]
      constructor
      · intro h
        split at h
        · simp at h
        · rename_i last hlast
          obtain ⟨hfits, hparts⟩ := Option.ite_none_left_eq_some.mp h
          obtain ⟨rfl, rfl⟩ := Prod.mk.inj (Option.some.inj hparts)
          -- the count is not zero, and as many octets are there
          have hpos : 0 < last.toNat :=
            Nat.pos_of_ne_zero fun hz => hfits (.inl (UInt8.toNat_inj.mp hz))
          have hle : last.toNat ≤ rest.length := by omega
          have hbound := last.toNat_lt
          have hlength : (rest.drop (rest.length - last.toNat)).length = last.toNat := by
            rw [List.length_drop]
            omega
          refine ⟨rest.drop (rest.length - last.toNat), (List.take_append_drop _ _).symm, ?_⟩
          rw [hlength, UInt8.ofNat_toNat, List.getLast?_drop, if_neg (by omega)]
          exact ⟨rfl, hpos, by omega, hlast⟩
      · rintro ⟨padding, rfl, rfl, hpos, hbound, hlast⟩
        have hcount : (UInt8.ofNat padding.length).toNat = padding.length :=
          UInt8.toNat_ofNat_of_lt (show padding.length < 256 by omega)
        have hne : UInt8.ofNat padding.length ≠ 0 := by
          intro hz
          simp [hz] at hcount
          omega
        rw [List.getLast?_append, hlast]
        simp only [Option.some_or, hcount]
        rw [if_neg (by simp [hne])]
        simp

/-- The parts in front of the body are what is read as the header. -/
theorem Header.read_eq_ok_iff_layout {b rest : Bytes} {h : Header} :
    Header.read b = .ok (h, rest) ↔
      ∃ l : Layout, l.Headed ∧ l.octets = b ∧ l.header = h ∧ l.body ++ l.padding = rest := by
  constructor
  · intro hread
    unfold Header.read at hread
    split at hread
    · rename_i b0 b1 s0 s1 t0 t1 t2 t3 r0 r1 r2 r3 afterFixed
      split at hread
      · simp at hread
      · rename_i hversion
        split at hread
        · simp at hread
        · rename_i csrcs afterCsrcs hwords
          split at hread
          · simp at hread
          · rename_i extension rest' hextension
            obtain ⟨rfl, rfl⟩ := Prod.mk.inj (Except.ok.inj hread)
            obtain ⟨sources, rfl, hsources, rfl⟩ := takeWords?_eq_some_iff_part.mp hwords
            obtain ⟨part, rfl, hpart, rfl⟩ := takeOptionalExtension?_eq_some_iff_part.mp hextension
            exact ⟨⟨[b0, b1, s0, s1, t0, t1, t2, t3, r0, r1, r2, r3], sources, part, rest', []⟩,
              ⟨rfl, not_not.mp hversion, hsources, hpart⟩, by simp [Layout.octets], rfl, by simp⟩
    · simp at hread
  · rintro ⟨l, hl, rfl, rfl, rfl⟩
    obtain ⟨fixed, sources, extension, body, padding⟩ := l
    obtain ⟨hfixed, hversion, hsources, hextension⟩ := hl
    simp only at hfixed hversion hsources hextension
    obtain ⟨b0, b1, s0, s1, t0, t1, t2, t3, r0, r1, r2, r3, nothing, rfl⟩ :=
      exists_fixed hfixed.ge
    obtain rfl : nothing = [] := List.length_eq_zero_iff.mp (by simpa using hfixed)
    have hwords := takeWords?_eq_some_iff_part.mpr
      ⟨sources, Eq.refl (sources ++ (extension ++ (body ++ padding))), hsources, rfl⟩
    have hoptional := takeOptionalExtension?_eq_some_iff_part.mpr
      ⟨extension, Eq.refl (extension ++ (body ++ padding)), hextension, rfl⟩
    simp only [Datagram.version, Datagram.sourceCount, Datagram.isExtended, octetAt_cons_zero]
      at hversion hwords hoptional
    simp only [Layout.octets, List.cons_append, List.nil_append, Header.read, hversion, ne_eq,
      not_true_eq_false, if_false, hwords, hoptional]
    simp only [Layout.header, Datagram.version, Datagram.sourceCount, Datagram.isExtended,
      Datagram.isPadded, octetAt_cons_zero, hversion]
    rfl

/-- **Exactly the valid layouts are packets**, and they mean what their parts do. -/
theorem Packet.decode_ok_iff_layout {b : Bytes} {p : Packet} :
    Packet.decode b = .ok p ↔ ∃ l : Layout, l.Valid ∧ l.octets = b ∧ l.packet = p := by
  constructor
  · intro hdecode
    unfold Packet.decode at hdecode
    split at hdecode
    · simp at hdecode
    · rename_i header rest hread
      split at hdecode
      · simp at hdecode
      · rename_i body count hsplit
        obtain rfl := Except.ok.inj hdecode
        obtain ⟨l, hl, rfl, rfl, rfl⟩ := Header.read_eq_ok_iff_layout.mp hread
        obtain ⟨padding, hrest, rfl, hpadding⟩ := splitPadding?_eq_some_iff.mp hsplit
        have hoctets : Layout.octets { l with body, padding } = l.octets := by
          simp only [Layout.octets, hrest]
        refine ⟨{ l with body, padding }, ⟨⟨hl.fixed, hl.version, hl.sources, hl.extension⟩,
          hpadding⟩, hoctets, ?_⟩
        simp only [Layout.packet, hoctets]
        rfl
  · rintro ⟨l, hl, rfl, rfl⟩
    have hread := Header.read_eq_ok_iff_layout.mpr ⟨l, hl.toHeaded, rfl, rfl, rfl⟩
    have hsplit : Packet.splitPadding? l.header.padding (l.body ++ l.padding) =
        some (l.body, UInt8.ofNat l.padding.length) :=
      splitPadding?_eq_some_iff.mpr ⟨l.padding, rfl, rfl, hl.padding⟩
    simp only [Packet.decode, hread, hsplit]
    rfl

/-! ## What is refused, and for what -/

namespace Datagram

/-- Where the sources end, by what the datagram says. -/
def sourcesEnd (b : Bytes) : Nat :=
  12 + 4 * sourceCount b

/-- Where the header ends, by what the datagram says. -/
def headerEnd (b : Bytes) : Nat :=
  if isExtended b then sourcesEnd b + (4 + 4 * (pairAt b (sourcesEnd b + 2)).toNat)
  else sourcesEnd b

/-- How much padding there is, by what the datagram says. -/
def lastOctet (b : Bytes) : UInt8 :=
  b.getLastD 0

/-- The tests that a datagram has to pass, each with the error for failing it. -/
def checks (b : Bytes) : List (Bool × DecodeError) :=
  [(12 ≤ b.length, .tooShort b.length),
    (version b == 2, .badVersion (version b)),
    (sourcesEnd b ≤ b.length, .csrcsTooShort (sourceCount b) (b.length - 12)),
    (headerEnd b ≤ b.length, .extensionTooShort),
    (!isPadded b || (1 ≤ (lastOctet b).toNat && (lastOctet b).toNat ≤ b.length - headerEnd b),
      .paddingTooShort)]

/-- The error of the first test that fails. -/
def firstFailure (b : Bytes) : Option DecodeError :=
  ((checks b).find? (!·.1)).map (·.2)

variable {b : Bytes}

/-- Of enough octets, the version is tested first. -/
theorem firstFailure_of_version (long : 12 ≤ b.length) (h : version b ≠ 2) :
    firstFailure b = some (.badVersion (version b)) := by
  simp [firstFailure, checks, long, h]

/-- Of a datagram with the right version, the second test is whether the sources
are there that it says it has. -/
theorem firstFailure_of_sources (long : 12 ≤ b.length) (stated : version b = 2)
    (h : b.length < sourcesEnd b) :
    firstFailure b = some (.csrcsTooShort (sourceCount b) (b.length - 12)) := by
  simp [firstFailure, checks, long, stated, h]

/-- Of one with all its sources, the next is whether its extension is there. -/
theorem firstFailure_of_extension (long : 12 ≤ b.length) (stated : version b = 2)
    (sources : sourcesEnd b ≤ b.length) (h : b.length < headerEnd b) :
    firstFailure b = some .extensionTooShort := by
  simp [firstFailure, checks, long, stated, sources, h]

/-- The last test is whether the padding fits behind the header. -/
theorem firstFailure_of_padding (long : 12 ≤ b.length) (stated : version b = 2)
    (sources : sourcesEnd b ≤ b.length) (header : headerEnd b ≤ b.length) (padded : isPadded b)
    (h : lastOctet b = 0 ∨ b.length - headerEnd b < (lastOctet b).toNat) :
    firstFailure b = some .paddingTooShort := by
  rcases h with h | h <;> simp [firstFailure, checks, long, stated, sources, header, padded, h]

end Datagram

open Datagram

theorem pairAt_append_add (front back : Bytes) (i : Nat) :
    pairAt (front ++ back) (front.length + i) = pairAt back i := by
  simp only [pairAt, octetAt_append_add, Nat.add_assoc]

theorem pairAt_append {front back : Bytes} {i : Nat} (h : i + 1 < front.length) :
    pairAt (front ++ back) i = pairAt front i := by
  simp only [pairAt, octetAt_append h, octetAt_append (Nat.lt_of_succ_lt h)]

/-- An extension in front of which the sources end says where the header does. -/
theorem Datagram.headerEnd_append {front back : Bytes} (extended : isExtended (front ++ back))
    (h : sourcesEnd (front ++ back) = front.length) :
    headerEnd (front ++ back) = front.length + (4 + 4 * (pairAt back 2).toNat) := by
  rw [headerEnd, if_pos extended, h, pairAt_append_add]

/-- A cut extension is the first thing wrong, if the parts in front of it are as they
say. -/
theorem Datagram.firstFailure_of_takeOptionalExtension? {front back : Bytes}
    (stated : version (front ++ back) = 2) (h : sourcesEnd (front ++ back) = front.length)
    (hcut : takeOptionalExtension? (isExtended (front ++ back)) back = none) :
    firstFailure (front ++ back) = some .extensionTooShort := by
  have hset : isExtended (front ++ back) = true := by
    by_contra hunset
    simp [takeOptionalExtension?, hunset] at hcut
  have hnone : takeExtension? back = none := by simpa [takeOptionalExtension?, hset] using hcut
  have hlong : 12 ≤ front.length := h ▸ Nat.le_add_right _ _
  have hlength : (front ++ back).length = front.length + back.length := List.length_append
  have hshort := takeExtension?_eq_none_iff.mp hnone
  refine firstFailure_of_extension (by omega) stated (by omega) ?_
  rw [headerEnd_append hset h]
  omega

/-- The first two parts can be looked at as one, and so can those behind. -/
theorem Layout.octets_eq (l : Layout) :
    l.octets = (l.fixed ++ l.sources) ++ (l.extension ++ (l.body ++ l.padding)) :=
  (List.append_assoc _ _ _).symm

namespace Layout.Headed

variable {l : Layout} (h : l.Headed)
include h

theorem octetAt_octets {i : Nat} (hi : i < 12) : octetAt l.octets i = octetAt l.fixed i :=
  octetAt_append (by rw [h.fixed]; exact hi)

theorem version_octets : Datagram.version l.octets = 2 := by
  rw [Datagram.version, h.octetAt_octets (by decide), ← Datagram.version, h.version]

theorem isPadded_octets : isPadded l.octets = isPadded l.fixed := by
  rw [isPadded, isPadded, h.octetAt_octets (by decide)]

theorem sourcesEnd_octets : sourcesEnd l.octets = l.fixed.length + l.sources.length := by
  rw [h.fixed, h.sources, sourcesEnd, sourceCount, sourceCount, h.octetAt_octets (by decide)]

/-- The header of a layout ends where it says. -/
theorem headerEnd_octets : headerEnd l.octets = l.headerLength := by
  have hextended : isExtended l.octets = isExtended l.fixed := by
    rw [isExtended, isExtended, h.octetAt_octets (by decide)]
  have hextension := h.extension
  by_cases hset : isExtended l.fixed
  · have hend := h.sourcesEnd_octets
    rw [IsExtension, if_pos hset] at hextension
    rw [← List.length_append] at hend
    rw [← hextended, octets_eq] at hset
    rw [octets_eq] at hend ⊢
    rw [headerEnd_append hset hend, pairAt_append (by omega), ← hextension, List.length_append,
      headerLength]
  · rw [IsExtension, if_neg hset] at hextension
    rw [headerEnd, hextended, if_neg hset, h.sourcesEnd_octets, headerLength, hextension,
      List.length_nil, Nat.add_zero]

end Layout.Headed

namespace Layout

theorem length_octets (l : Layout) :
    l.octets.length = l.headerLength + (l.body ++ l.padding).length := by
  simp only [octets, headerLength, List.length_append]
  omega

/-- The last octet of a datagram is that of its padding. -/
theorem lastOctet_octets {l : Layout} {last : UInt8}
    (h : (l.body ++ l.padding).getLast? = some last) : lastOctet l.octets = last := by
  simp only [lastOctet, octets, List.getLastD_eq_getLast?, ← List.append_assoc] at h ⊢
  rw [List.append_assoc, List.getLast?_append, h]
  rfl

/-- The count of the padding is that of its octets. -/
theorem Valid.toNat_paddingCount {l : Layout} (h : l.Valid) :
    l.packet.paddingCount.toNat = l.padding.length := by
  have hbound : l.padding.length ≤ 255 := by
    have hpadding := h.padding
    unfold IsPadding at hpadding
    split at hpadding
    · exact hpadding.2.1
    · simp [hpadding]
  exact UInt8.toNat_ofNat_of_lt (show l.padding.length < 256 by omega)

/-- A valid layout fails no test. -/
theorem Valid.firstFailure_octets {l : Layout} (h : l.Valid) : firstFailure l.octets = none := by
  have hlength := l.length_octets
  have hfixed := h.fixed
  have hsources := h.sourcesEnd_octets
  have hheader := h.headerEnd_octets
  have hfront : l.fixed.length + l.sources.length ≤ l.headerLength := Nat.le_add_right _ _
  have hcount (hset : isPadded l.octets = true) : 1 ≤ (lastOctet l.octets).toNat ∧
      (lastOctet l.octets).toNat ≤ l.octets.length - headerEnd l.octets := by
    have hpadding := h.padding
    rw [← h.isPadded_octets, IsPadding, if_pos hset] at hpadding
    obtain ⟨hpos, -, hlast⟩ := hpadding
    have hoctet : lastOctet l.octets = l.packet.paddingCount :=
      lastOctet_octets (by rw [List.getLast?_append, hlast]; rfl)
    rw [List.length_append] at hlength
    rw [hoctet, h.toNat_paddingCount]
    omega
  have hall : ∀ c ∈ checks l.octets, c.1 = true := by
    simp only [checks, List.forall_mem_cons, decide_eq_true_eq, beq_iff_eq, Bool.or_eq_true,
      Bool.not_eq_true', Bool.and_eq_true]
    refine ⟨by omega, h.version_octets, by omega, by omega, ?_, by simp⟩
    exact (Bool.eq_false_or_eq_true _).symm.imp_right hcount
  rw [firstFailure, List.find?_eq_none.mpr (by simpa using hall), Option.map_none]

/-- What is wrong with the padding is the first thing wrong, if the parts in front of
it are as they say. -/
theorem Headed.firstFailure_of_splitPadding? {l : Layout} (h : l.Headed)
    (hsplit : Packet.splitPadding? l.header.padding (l.body ++ l.padding) = none) :
    firstFailure l.octets = some .paddingTooShort := by
  have hlength := l.length_octets
  have hfixed := h.fixed
  have hsources := h.sourcesEnd_octets
  have hheader := h.headerEnd_octets
  have hfront : l.fixed.length + l.sources.length ≤ l.headerLength := Nat.le_add_right _ _
  have hset : isPadded l.octets = true := by
    rw [h.isPadded_octets]
    by_contra hunset
    simp [Packet.splitPadding?, Layout.header, hunset] at hsplit
  refine firstFailure_of_padding (by omega) h.version_octets (by omega) (by omega) hset ?_
  rw [h.isPadded_octets] at hset
  simp only [Packet.splitPadding?, Layout.header, hset, if_true] at hsplit
  cases hlast : (l.body ++ l.padding).getLast? with
  | none =>
      -- there is nothing behind the header, and a count of zero is refused as well
      rw [List.getLast?_eq_none_iff.mp hlast, List.length_nil, Nat.add_zero] at hlength
      rw [hlength, hheader, Nat.sub_self]
      exact (Nat.eq_zero_or_pos _).imp_left fun hz => UInt8.toNat_inj.mp hz
  | some last =>
      simp only [hlast, ite_eq_left_iff, reduceCtorEq, imp_false, not_not] at hsplit
      rw [lastOctet_octets hlast, hlength, hheader, Nat.add_sub_cancel_left]
      exact hsplit

end Layout

/-- A header is read by what the datagram says of itself. -/
theorem Header.read_of_long {b : Bytes} (long : 12 ≤ b.length) :
    Header.read b =
      if Datagram.version b ≠ 2 then .error (.badVersion (Datagram.version b))
      else
        match takeWords? (sourceCount b) (b.drop 12) with
        | none => .error (.csrcsTooShort (sourceCount b) (b.length - 12))
        | some (csrcs, afterCsrcs) =>
          match takeOptionalExtension? (isExtended b) afterCsrcs with
          | none => .error .extensionTooShort
          | some (extension, rest) =>
            .ok ({ version := Datagram.version b
                   padding := isPadded b
                   marker := octetAt b 1 &&& 0x80 != 0
                   payloadType := octetAt b 1 &&& 0x7F
                   seq := pairAt b 2
                   timestamp := quadAt b 4
                   ssrc := quadAt b 8
                   csrcs, extension }, rest) := by
  obtain ⟨_, _, _, _, _, _, _, _, _, _, _, _, _, rfl⟩ := exists_fixed long
  rfl

/-- What is wrong with the parts in front of the body is the first thing wrong. -/
theorem Header.firstFailure_of_error {b : Bytes} {e : DecodeError}
    (h : Header.read b = .error e) : firstFailure b = some e := by
  rcases Nat.lt_or_ge b.length 12 with hshort | hlong
  · obtain rfl := Except.error.inj ((Header.read_of_short hshort).symm.trans h)
    simp [firstFailure, checks, hshort]
  rw [Header.read_of_long hlong] at h
  by_cases hversion : Datagram.version b = 2
  · rw [if_neg (not_not.mpr hversion)] at h
    have hdrop : (b.drop 12).length = b.length - 12 := List.length_drop
    cases hwords : takeWords? (sourceCount b) (b.drop 12) with
    | none =>
        rw [hwords] at h
        obtain rfl := Except.error.inj h
        refine firstFailure_of_sources hlong hversion ?_
        rw [sourcesEnd]
        by_contra hroom
        obtain ⟨_, -, htake⟩ := @takeWords?_eq_some (sourceCount b) (b.drop 12) (by omega)
        cases hwords.symm.trans htake
    | some found =>
        obtain ⟨csrcs, afterCsrcs⟩ := found
        obtain ⟨sources, hparts, hcount, -⟩ := takeWords?_eq_some_iff_part.mp hwords
        simp only [hwords] at h
        cases hextension : takeOptionalExtension? (isExtended b) afterCsrcs with
        | some found => simp [hextension] at h
        | none =>
            simp only [hextension] at h
            obtain rfl := Except.error.inj h
            have hfront : (b.take 12 ++ sources) ++ afterCsrcs = b := by
              rw [List.append_assoc, ← hparts, List.take_append_drop]
            have hsources : sourcesEnd b = (b.take 12 ++ sources).length := by
              rw [List.length_append, List.length_take_of_le hlong, hcount, sourcesEnd]
            have hfirst := @firstFailure_of_takeOptionalExtension? (b.take 12 ++ sources)
              afterCsrcs (by rwa [hfront]) (by rwa [hfront]) (by rwa [hfront])
            rwa [hfront] at hfirst
  · rw [if_pos hversion] at h
    obtain rfl := Except.error.inj h
    exact firstFailure_of_version hlong hversion

/-- **A datagram that is no packet is refused for the first test that it fails.** -/
theorem Packet.decode_error_iff_firstFailure {b : Bytes} {e : DecodeError} :
    Packet.decode b = .error e ↔ firstFailure b = some e := by
  cases hdecode : Packet.decode b with
  | ok p =>
      obtain ⟨l, hl, rfl, -⟩ := Packet.decode_ok_iff_layout.mp hdecode
      simp [hl.firstFailure_octets]
  | error e' =>
      have hfirst : firstFailure b = some e' := by
        unfold Packet.decode at hdecode
        split at hdecode
        · rename_i e'' hread
          obtain rfl := Except.error.inj hdecode
          exact Header.firstFailure_of_error hread
        · rename_i header rest hread
          split at hdecode
          · rename_i hsplit
            obtain rfl := Except.error.inj hdecode
            obtain ⟨l, hl, rfl, rfl, rfl⟩ := Header.read_eq_ok_iff_layout.mp hread
            exact hl.firstFailure_of_splitPadding? hsplit
          · simp at hdecode
      rw [hfirst, Except.error.injEq, Option.some.injEq]

/-- Where there is nothing behind the header, no octet of it counts padding. -/
example : Packet.decode [0xA0, 96, 0, 7, 0, 0, 0, 0, 0, 0, 0, 1] = .error .paddingTooShort := rfl

/-- **Datagrams are split by their layout.**  A datagram is accepted exactly if it is
made of twelve octets of version 2, the sources that they count, the extension if
they announce one, a body, and if they announce it padding that ends in its count;
the packet then has the fields of these octets, and its header, body and padding
make up the datagram.  Any other datagram is refused for the first test that it
fails. -/
theorem Packet.decode_iff_layout (b : Bytes) :
    (∀ p, Packet.decode b = .ok p ↔
      ∃ l : Layout, l.Valid ∧ l.octets = b ∧ l.packet = p ∧
        ∃ off, Header.decode b = .ok (p.header, off) ∧
          off + p.body.length + p.paddingCount.toNat = b.length) ∧
      ∀ e, Packet.decode b = .error e ↔ firstFailure b = some e := by
  refine ⟨fun p => ⟨fun hdecode => ?_, ?_⟩, fun e => Packet.decode_error_iff_firstFailure⟩
  · obtain ⟨l, hl, rfl, rfl⟩ := Packet.decode_ok_iff_layout.mp hdecode
    refine ⟨l, hl, rfl, rfl, l.headerLength, ?_, ?_⟩
    · have hread := Header.read_eq_ok_iff_layout.mpr ⟨l, hl.toHeaded, rfl, rfl, rfl⟩
      simp only [Header.decode, hread, l.length_octets, Nat.add_sub_cancel]
      rfl
    · rw [hl.toNat_paddingCount, l.length_octets, List.length_append, Nat.add_assoc]
      rfl
  · rintro ⟨l, hl, rfl, rfl, -⟩
    exact Packet.decode_ok_iff_layout.mpr ⟨l, hl, rfl, rfl⟩

end RtpReassembly.Rtp
