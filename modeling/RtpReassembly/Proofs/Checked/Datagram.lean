import RtpReassembly.Proofs.Headers

/-!
# Reading a datagram by offsets

Octet strings are read by matching, which is never out of range.  Here datagrams
are read as by a receiver that holds them in a buffer: with indices, slices and
differences, each of which is defined in some range only.  A computation with
such operations is `Checked`, and gives nothing once one of them is not defined.

* `Checked.slice`, `Checked.sub`, and `l[i]?`: the operations;
* `Header.decodeChecked_eq`, `Packet.decodeChecked_eq`: a datagram, however short
  and whatever it says about itself, is read without leaving it, and the result
  is that of matching.
-/

namespace RtpReassembly

/-- The result of partial operations; none, if one of them was not defined. -/
abbrev Checked (α : Type) := Option α

namespace Checked

/-- The part of a row from `start` up to `stop`, if it has such a part. -/
def slice {α : Type} (l : List α) (start stop : Nat) : Checked (List α) :=
  if start ≤ stop ∧ stop ≤ l.length then some ((l.drop start).take (stop - start)) else none

/-- A difference, if it is not negative. -/
def sub (a b : Nat) : Checked Nat :=
  if b ≤ a then some (a - b) else none

variable {α β : Type}

/-- A slice whose bounds are in order and within the row is defined. -/
theorem slice_eq {l : List α} {start stop : Nat} (h : start ≤ stop)
    (h' : stop ≤ l.length) : slice l start stop = some ((l.drop start).take (stop - start)) :=
  if_pos ⟨h, h'⟩

theorem sub_eq {a b : Nat} (h : b ≤ a) : sub a b = some (a - b) :=
  if_pos h

/-- A slice is as long as its bounds say. -/
theorem length_of_slice {l part : List α} {start stop : Nat}
    (h : slice l start stop = some part) : part.length = stop - start := by
  obtain ⟨⟨hstart, hstop⟩, hpart⟩ := Option.ite_none_right_eq_some.mp h
  rw [← Option.some.inj hpart, List.length_take, List.length_drop]
  omega

/-- What is defined for each of a row is defined for the row. -/
theorem mapM_eq_some {f : α → Checked β} {g : α → β} {l : List α} (h : ∀ x ∈ l, f x = some (g x)) :
    l.mapM f = some (l.map g) := by
  induction l with
  | nil => rfl
  | cons x l ih =>
      obtain ⟨hx, hl⟩ := List.forall_mem_cons.mp h
      simp [hx, ih hl]

/-- An undefined operation on one of several members is undefined on all of them.
-/
theorem mapM_eq_none {f : α → Checked β} {l : List α} {x : α} (hx : x ∈ l) (h : f x = none) :
    l.mapM f = none := by
  induction l with
  | nil => simp at hx
  | cons y l ih =>
      rcases List.mem_cons.mp hx with rfl | hx
      · simp [h]
      · simp [ih hx]

end Checked

open Checked

namespace Rtp

/-- The word of two octets at an offset. -/
def word16At (b : Bytes) (i : Nat) : Checked UInt16 := do
  return Bytes.word16 (← b[i]?) (← b[i + 1]?)

/-- The word of four octets at an offset. -/
def word32At (b : Bytes) (i : Nat) : Checked UInt32 := do
  return Bytes.word32 (← b[i]?) (← b[i + 1]?) (← b[i + 2]?) (← b[i + 3]?)

/-- The pieces of four octets that a string consists of; a shorter one at the end
is left out. -/
def quads : Bytes → List Bytes
  | a :: b :: c :: d :: rest => [a, b, c, d] :: quads rest
  | _ => []

/-- An extension at an offset, and the offset behind it; `none` if it is cut off. -/
def extensionAt (b : Bytes) (off : Nat) : Checked (Option (Extension × Nat)) :=
  if b.length < off + 4 then return none
  else do
    let profile ← word16At b off
    let words := (← word16At b (off + 2)).toNat
    if b.length < off + 4 + words * 4 then return none
    else
      let data ← slice b (off + 4) (off + 4 + words * 4)
      return some ({ profile, data }, off + 4 + words * 4)

/-- An extension at an offset, if there is one, and the offset behind it. -/
def optionalExtensionAt (isSet : Bool) (b : Bytes) (off : Nat) :
    Checked (Option (Option Extension × Nat)) :=
  if isSet then do
    let found ← extensionAt b off
    return found.map fun (e, behind) => (some e, behind)
  else return some (none, off)

/-- The header at the front of a datagram, and where what follows it starts. -/
def Header.decodeChecked (b : Bytes) : Checked (Except DecodeError (Header × Nat)) :=
  if b.length < 12 then return .error (.tooShort b.length)
  else do
    let b0 : UInt8 ← b[0]?
    if b0 >>> 6 ≠ 2 then return .error (.badVersion (b0 >>> 6))
    else
      let b1 : UInt8 ← b[1]?
      let seq ← word16At b 2
      let timestamp ← word32At b 4
      let ssrc ← word32At b 8
      let count := (b0 &&& 0x0F).toNat
      if b.length < 12 + count * 4 then
        return .error (.csrcsTooShort count (← sub b.length 12))
      else
        let csrcs ← (quads (← slice b 12 (12 + count * 4))).mapM (word32At · 0)
        match ← optionalExtensionAt (b0 &&& 0x10 != 0) b (12 + count * 4) with
        | none => return .error .extensionTooShort
        | some (extension, off) =>
          return .ok ({ version := b0 >>> 6
                        padding := b0 &&& 0x20 != 0
                        marker := b1 &&& 0x80 != 0
                        payloadType := b1 &&& 0x7F
                        seq, timestamp, ssrc, csrcs, extension }, off)

/-- Parts what follows a header into body and padding. -/
def Packet.splitPaddingAt (isPadded : Bool) (raw : Bytes) (off : Nat) :
    Checked (Option (Bytes × UInt8)) :=
  if isPadded then do
    let count : UInt8 ← raw[← sub raw.length 1]?
    if count = 0 then return none
    else if (← sub raw.length off) < count.toNat then return none
    else return some (← slice raw off (← sub raw.length count.toNat), count)
  else do
    return some (← slice raw off raw.length, 0)

/-- Splits a datagram. -/
def Packet.decodeChecked (raw : Bytes) : Checked (Except DecodeError Packet) := do
  match ← Header.decodeChecked raw with
  | .error e => return .error e
  | .ok (header, off) =>
    match ← splitPaddingAt header.padding raw off with
    | none => return .error .paddingTooShort
    | some (body, count) => return .ok { header, raw, body, paddingCount := count }

/-! ## Nothing is read outside of a datagram -/

/-- A word can be read wherever two octets are left. -/
theorem word16At_of_drop {b rest : Bytes} {i : Nat} {x y : UInt8}
    (h : b.drop i = x :: y :: rest) : word16At b i = some (Bytes.word16 x y) := by
  have hx : (b.drop i)[0]? = some x := by rw [h]; rfl
  have hy : (b.drop i)[1]? = some y := by rw [h]; rfl
  rw [List.getElem?_drop] at hx hy
  simp_all [word16At]

@[simp] theorem word32At_zero (a b c d : UInt8) (rest : Bytes) :
    word32At (a :: b :: c :: d :: rest) 0 = some (Bytes.word32 a b c d) := rfl

/-- A string of four octets or more has four in front. -/
theorem exists_quad {b : Bytes} {n : Nat} (h : n + 4 ≤ b.length) :
    ∃ b₀ b₁ b₂ b₃ rest, b = b₀ :: b₁ :: b₂ :: b₃ :: rest ∧ n ≤ rest.length := by
  match b with
  | [] | [_] | [_, _] | [_, _, _] => simp only [List.length_cons, List.length_nil] at h; omega
  | b₀ :: b₁ :: b₂ :: b₃ :: rest =>
      exact ⟨b₀, b₁, b₂, b₃, rest, rfl, by simp only [List.length_cons] at h; omega⟩

/-- A string of twelve octets or more has the fixed part of a header in front. -/
theorem exists_fixed {b : Bytes} (h : 12 ≤ b.length) :
    ∃ b0 b1 s0 s1 t0 t1 t2 t3 r0 r1 r2 r3 rest,
      b = b0 :: b1 :: s0 :: s1 :: t0 :: t1 :: t2 :: t3 :: r0 :: r1 :: r2 :: r3 :: rest := by
  obtain ⟨b0, b1, s0, s1, _, rfl, htimestamp⟩ := exists_quad (n := 8) h
  obtain ⟨t0, t1, t2, t3, _, rfl, hssrc⟩ := exists_quad (n := 4) htimestamp
  obtain ⟨r0, r1, r2, r3, rest, rfl, -⟩ := exists_quad (n := 0) hssrc
  exact ⟨b0, b1, s0, s1, t0, t1, t2, t3, r0, r1, r2, r3, rest, rfl⟩

/-- Words cannot be taken off that are not there. -/
theorem takeWords?_eq_none {count : Nat} {b : Bytes} (h : b.length < count * 4) :
    takeWords? count b = none := by
  induction count generalizing b with
  | zero => omega
  | succ count ih =>
      match b with
      | [] | [_] | [_, _] | [_, _, _] => rfl
      | b₀ :: b₁ :: b₂ :: b₃ :: rest =>
          have hrest := ih (b := rest) (by simp only [List.length_cons] at h; omega)
          simp [takeWords?, hrest]

/-- Words that are there are read piece by piece. -/
theorem takeWords?_eq_some {count : Nat} {b : Bytes} (h : count * 4 ≤ b.length) :
    ∃ words, (quads (b.take (count * 4))).mapM (word32At · 0) = some words ∧
      takeWords? count b = some (words, b.drop (count * 4)) := by
  induction count generalizing b with
  | zero => exact ⟨[], by simp [quads], by simp [takeWords?]⟩
  | succ count ih =>
      obtain ⟨b₀, b₁, b₂, b₃, rest, rfl, hrest⟩ := exists_quad (b := b) (n := count * 4) (by omega)
      obtain ⟨words, hquads, htake⟩ := ih hrest
      refine ⟨Bytes.word32 b₀ b₁ b₂ b₃ :: words, ?_, ?_⟩
      · simp [Nat.succ_mul, quads, hquads]
      · simp [Nat.succ_mul, takeWords?, htake]

/-- **Extension.** No read behind the four octets at its front is out of bounds,
since the words announced there are counted before they are sliced; and what is
read at offsets is what is taken off a suffix. -/
theorem extensionAt_eq {b : Bytes} {off : Nat} (h : off ≤ b.length) :
    extensionAt b off = some ((takeExtension? (b.drop off)).map
      fun (e, rest) => (e, b.length - rest.length)) := by
  have hlength : (b.drop off).length = b.length - off := List.length_drop
  unfold extensionAt
  match hdrop : b.drop off with
  | [] | [_] | [_, _] | [_, _, _] =>
      rw [hdrop] at hlength
      simp only [List.length_cons, List.length_nil] at hlength
      rw [if_pos (by omega)]
      rfl
  | p :: q :: hi :: lo :: rest =>
      rw [hdrop] at hlength
      simp only [List.length_cons] at hlength
      have hback : b.drop (off + 2) = hi :: lo :: rest := by
        rw [← List.drop_drop, hdrop]
        rfl
      have hrest : b.drop (off + 4) = rest := by
        rw [← List.drop_drop, hdrop]
        rfl
      rw [if_neg (by omega), word16At_of_drop hdrop, word16At_of_drop hback]
      simp only [Option.bind_eq_bind, Option.bind_some, takeExtension?]
      by_cases hcut : rest.length < (Bytes.word16 hi lo).toNat * 4
      · rw [if_pos (by omega), Bytes.splitExact?_eq_none_iff.mpr hcut]
        rfl
      · rw [if_neg (by omega), slice_eq (by omega) (by omega), hrest]
        have hsplit : Bytes.splitExact? ((Bytes.word16 hi lo).toNat * 4) rest =
            some (rest.take ((Bytes.word16 hi lo).toNat * 4),
              rest.drop ((Bytes.word16 hi lo).toNat * 4)) :=
          Bytes.splitExact?_eq_some_iff.mpr
            ⟨(List.take_append_drop _ _).symm, List.length_take_of_le (by omega)⟩
        have hbehind : b.length - (rest.drop ((Bytes.word16 hi lo).toNat * 4)).length =
            off + 4 + (Bytes.word16 hi lo).toNat * 4 := by
          rw [List.length_drop]
          omega
        simp only [hsplit, hbehind, Option.bind_some, Option.map_some, Nat.add_sub_cancel_left]
        rfl

/-- An extension that may be there is read likewise. -/
theorem optionalExtensionAt_eq {b : Bytes} {off : Nat} (isSet : Bool) (h : off ≤ b.length) :
    optionalExtensionAt isSet b off = some ((takeOptionalExtension? isSet (b.drop off)).map
      fun (extension, rest) => (extension, b.length - rest.length)) := by
  cases isSet with
  | false => simp [optionalExtensionAt, takeOptionalExtension?, Nat.sub_sub_self h]
  | true =>
      simp [optionalExtensionAt, takeOptionalExtension?, extensionAt_eq h, Function.comp_def]

/-- A datagram that is shorter than a header is refused for that. -/
theorem Header.read_of_short {b : Bytes} (h : b.length < 12) :
    Header.read b = .error (.tooShort b.length) := by
  unfold Header.read
  split
  · simp only [List.length_cons] at h
    omega
  · rfl

/-- Nothing is read of fewer than twelve octets. -/
theorem Header.decode_of_short {b : Bytes} (h : b.length < 12) :
    Header.decode b = .error (.tooShort b.length) := by
  rw [Header.decode, Header.read_of_short h]

/-- **Headers are read inside of a datagram.** -/
theorem Header.decodeChecked_eq (b : Bytes) :
    Header.decodeChecked b = some (Header.decode b) := by
  by_cases hshort : b.length < 12
  · rw [Header.decode_of_short hshort, Header.decodeChecked, if_pos hshort]
    rfl
  · obtain ⟨b0, b1, s0, s1, t0, t1, t2, t3, r0, r1, r2, r3, rest, rfl⟩ :=
      exists_fixed (Nat.le_of_not_lt hshort)
    -- from here on the datagram has a name, and what is read of it is known
    generalize hb : b0 :: b1 :: s0 :: s1 :: t0 :: t1 :: t2 :: t3 :: r0 :: r1 :: r2 :: r3 :: rest = b
      at hshort
    have hfirst : b[0]? = some b0 := by rw [← hb]; rfl
    have hsecond : b[1]? = some b1 := by rw [← hb]; rfl
    have hseq : word16At b 2 = some (Bytes.word16 s0 s1) := by rw [← hb]; rfl
    have htime : word32At b 4 = some (Bytes.word32 t0 t1 t2 t3) := by rw [← hb]; rfl
    have hsource : word32At b 8 = some (Bytes.word32 r0 r1 r2 r3) := by rw [← hb]; rfl
    have hrest : b.drop 12 = rest := by rw [← hb]; rfl
    have hlength : b.length = rest.length + 12 := by rw [← hb]; rfl
    have hread := congrArg Header.read hb
    rw [Header.read] at hread
    rw [Header.decodeChecked, Header.decode, ← hread, if_neg hshort]
    simp only [hfirst, hsecond, hseq, htime, hsource, Option.bind_eq_bind, Option.bind_some]
    clear hb hread
    split
    · rfl
    · by_cases hcut : rest.length < (b0 &&& 0x0F).toNat * 4
      · rw [if_pos (by omega), takeWords?_eq_none hcut, sub_eq (by omega)]
        simp [hlength]
      · obtain ⟨words, hquads, htake⟩ := takeWords?_eq_some (Nat.le_of_not_lt hcut)
        have hbehind : b.drop (12 + (b0 &&& 0x0F).toNat * 4) =
            rest.drop ((b0 &&& 0x0F).toNat * 4) := by
          rw [← List.drop_drop, hrest]
        rw [if_neg (by omega), htake, slice_eq (by omega) (by omega), hrest,
          Nat.add_sub_cancel_left, optionalExtensionAt_eq _ (by omega), hbehind]
        simp only [Option.bind_some, hquads]
        cases takeOptionalExtension? (b0 &&& 0x10 != 0)
            (rest.drop ((b0 &&& 0x0F).toNat * 4)) with
        | none => rfl
        | some found => rfl

/-- What stands behind a header is an end of the datagram. -/
theorem Header.read_suffix {b rest : Bytes} {header : Header}
    (h : Header.read b = .ok (header, rest)) : 12 ≤ b.length ∧ rest <:+ b := by
  obtain ⟨-, rfl⟩ := Header.read_eq_ok_iff.mp h
  refine ⟨?_, List.suffix_append _ _⟩
  simp [Header.encode, Bytes.be16, Bytes.be32]

/-- **Padding.** The last octet is there in a datagram that is not empty, and the
number in it is taken off the end only once as many octets are known to follow the
header. -/
theorem Packet.splitPaddingAt_eq {raw : Bytes} {off : Nat} (isPadded : Bool)
    (hpos : 0 < raw.length) (hoff : off ≤ raw.length) :
    splitPaddingAt isPadded raw off = some (splitPadding? isPadded (raw.drop off)) := by
  cases isPadded with
  | false =>
      rw [splitPaddingAt, slice_eq hoff (Nat.le_refl _)]
      simp [splitPadding?, List.take_of_length_le]
  | true =>
      obtain ⟨count, hcount⟩ : ∃ count, raw[raw.length - 1]? = some count :=
        ⟨_, List.getElem?_eq_getElem (by omega)⟩
      have hlast : (raw.drop off).getLast? = if raw.length ≤ off then none else some count := by
        rw [List.getLast?_drop, List.getLast?_eq_getElem?, hcount]
      simp only [splitPaddingAt, splitPadding?, if_true, sub_eq (show 1 ≤ raw.length by omega),
        sub_eq hoff, hcount, hlast, Option.bind_eq_bind, Option.bind_some, List.length_drop]
      by_cases hzero : count = 0
      · by_cases hbody : raw.length ≤ off <;> simp [hzero, hbody]
      · have hcountpos : 0 < count.toNat :=
          Nat.pos_of_ne_zero fun h => hzero (UInt8.toNat_inj.mp h)
        by_cases hroom : raw.length - off < count.toNat
        · rw [if_neg hzero, if_pos hroom]
          split
          · rfl
          · rename_i hsome
            split at hsome <;> simp_all
        · have hbody : ¬ raw.length ≤ off := by omega
          rw [sub_eq (by omega), if_neg hzero, if_neg hroom, if_neg hbody]
          simp only [Option.bind_some]
          rw [slice_eq (by omega) (by omega), Nat.sub_right_comm]
          simp [hzero, hroom]

/-- **Packets are read inside of a datagram.** -/
theorem Packet.decodeChecked_eq (raw : Bytes) :
    Packet.decodeChecked raw = some (Packet.decode raw) := by
  unfold Packet.decodeChecked Packet.decode
  rw [Header.decodeChecked_eq, Header.decode]
  cases hread : Header.read raw with
  | error e => rfl
  | ok parts =>
      obtain ⟨header, rest⟩ := parts
      obtain ⟨hlong, front, rfl⟩ := Header.read_suffix hread
      have hoff : (front ++ rest).length - rest.length = front.length := by simp
      simp only [Option.bind_eq_bind, Option.bind_some, hoff]
      rw [splitPaddingAt_eq _ (by omega) (by simp), List.drop_left]
      cases splitPadding? header.padding rest <;> rfl

end Rtp

end RtpReassembly
