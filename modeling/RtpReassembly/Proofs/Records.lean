import RtpReassembly.Aggregation
import Mathlib.Algebra.Group.Nat.Defs

/-!
# Strings of records

A record is a NAL unit behind its length: two octets of length in an
aggregation, four in an access unit.  Reading is the inverse of writing for
both widths, as long as the length fits its octets.

* `Aggregation.widenedLength?_eq_some_iff` says which strings pass the check of
  an aggregation, and `Aggregation.widen_encode` what they are copied to;
* `Avcc.records_encode` reads an access unit back.
-/

namespace RtpReassembly

/-- Two octets are written back from the word that was read of them. -/
theorem Bytes.be16_word16 (a b : UInt8) : Bytes.be16 (Bytes.word16 a b) = [a, b] := by
  have ha := a.toNat_lt
  have hb := b.toNat_lt
  simp only [Bytes.be16, Bytes.word16, UInt16.toNat_ofNat', List.cons.injEq, and_true]
  constructor <;> apply UInt8.toNat_inj.mp <;> rw [UInt8.toNat_ofNat'] <;> omega

/-- Four octets are written back from the word that was read of them. -/
theorem Bytes.be32_word32 (a b c d : UInt8) :
    Bytes.be32 (Bytes.word32 a b c d) = [a, b, c, d] := by
  have ha := a.toNat_lt
  have hb := b.toNat_lt
  have hc := c.toNat_lt
  have hd := d.toNat_lt
  simp only [Bytes.be32, Bytes.word32, UInt32.toNat_ofNat', List.cons.injEq, and_true]
  refine ⟨?_, ?_, ?_, ?_⟩ <;> apply UInt8.toNat_inj.mp <;> rw [UInt8.toNat_ofNat'] <;> omega

namespace Aggregation

/-- A record can be taken off exactly where one was put. -/
theorem take?_eq_some_iff {b unit rest : Bytes} :
    take? b = some (unit, rest) ↔ unit.length < 2 ^ 16 ∧ b = record unit ++ rest := by
  constructor
  · intro h
    unfold take? at h
    split at h
    · rename_i hi lo behind
      obtain ⟨rfl, hlen⟩ := Bytes.splitExact?_eq_some_iff.mp h
      have hlt := (Bytes.word16 hi lo).toNat_lt
      have hword : UInt16.ofNat unit.length = Bytes.word16 hi lo := by
        rw [hlen, UInt16.ofNat_toNat]
      exact ⟨by omega, by simp [record, hword, Bytes.be16_word16]⟩
    · simp at h
  · rintro ⟨hlt, rfl⟩
    have hlen : (UInt16.ofNat unit.length).toNat = unit.length :=
      UInt16.toNat_ofNat_of_lt hlt
    simp only [record, Bytes.be16, List.cons_append, List.nil_append, take?, Bytes.word16_be16]
    exact Bytes.splitExact?_eq_some_iff.mpr ⟨rfl, hlen.symm⟩

/-- NAL units whose lengths fit two octets. -/
def Short (units : List Bytes) : Prop :=
  ∀ unit ∈ units, unit.length < 2 ^ 16

theorem encode_cons (unit : Bytes) (units : List Bytes) :
    encode (unit :: units) = record unit ++ encode units := by
  simp [encode]

/-- Behind a complete record the check goes on with its length counted. -/
theorem widenedLengthFrom?_of_take? {b unit rest : Bytes} (total : Nat)
    (h : take? b = some (unit, rest)) :
    widenedLengthFrom? total b = widenedLengthFrom? (total + 4 + unit.length) rest := by
  have hne : b ≠ [] := by
    rintro rfl
    simp [take?] at h
  rw [widenedLengthFrom?, if_neg (by simpa using hne)]
  split
  · rename_i hread
    rw [h] at hread
    obtain ⟨rfl, rfl⟩ := Prod.mk.inj (Option.some.inj hread)
    rfl
  · rename_i hread
    simp [h] at hread

/-- Where no complete record begins, though something is left, the check fails. -/
theorem widenedLengthFrom?_eq_none {b : Bytes} (total : Nat) (hne : b ≠ [])
    (h : take? b = none) : widenedLengthFrom? total b = none := by
  rw [widenedLengthFrom?, if_neg (by simpa using hne)]
  split
  · rename_i hread
    simp [h] at hread
  · rfl

/-- The length that is counted is that of the copy. -/
theorem widenedLengthFrom?_encode {units : List Bytes} (h : Short units) (total : Nat) :
    widenedLengthFrom? total (encode units) = some (total + (Avcc.encode units).length) := by
  induction units generalizing total with
  | nil => simp [encode, widenedLengthFrom?, Avcc.encode]
  | cons unit units ih =>
      have htake : take? (encode (unit :: units)) = some (unit, encode units) :=
        take?_eq_some_iff.mpr ⟨h unit List.mem_cons_self, encode_cons unit units⟩
      rw [widenedLengthFrom?_of_take? total htake,
        ih (fun u hu => h u (List.mem_cons_of_mem _ hu))]
      simp only [Avcc.encode, Avcc.record, Bytes.be32, List.flatMap_cons, List.length_append,
        List.length_cons, List.length_nil, Option.some.injEq]
      omega

/-- What passes the check is a string of records. -/
theorem exists_encode_of_widenedLengthFrom? {total n : Nat} {b : Bytes}
    (h : widenedLengthFrom? total b = some n) :
    ∃ units, Short units ∧ b = encode units := by
  fun_induction widenedLengthFrom? total b with
  | case1 total b hempty =>
      exact ⟨[], by simp [Short], by simpa [encode] using hempty⟩
  | case2 total b hne unit rest hread ih =>
      obtain ⟨hlt, rfl⟩ := take?_eq_some_iff.mp hread
      obtain ⟨units, hshort, rfl⟩ := ih h
      refine ⟨unit :: units, ?_, (encode_cons unit units).symm⟩
      intro u hu
      rcases List.mem_cons.mp hu with rfl | hu
      · exact hlt
      · exact hshort u hu
  | case3 => simp at h

/-- **The check of an aggregation.**  It passes exactly what is a row of one
or more complete records and nothing else, and counts the octets of the copy. -/
theorem widenedLength?_eq_some_iff {b : Bytes} {n : Nat} :
    widenedLength? b = some n ↔
      ∃ units, units ≠ [] ∧ Short units ∧ b = encode units ∧ n = (Avcc.encode units).length := by
  unfold widenedLength?
  constructor
  · intro h
    obtain ⟨hfrom, hpos⟩ := Option.filter_eq_some_iff.mp h
    obtain ⟨units, hshort, rfl⟩ := exists_encode_of_widenedLengthFrom? hfrom
    rw [widenedLengthFrom?_encode hshort] at hfrom
    have hn : n = (Avcc.encode units).length := by
      simpa using (Option.some.inj hfrom).symm
    refine ⟨units, ?_, hshort, rfl, hn⟩
    rintro rfl
    simp [hn, Avcc.encode] at hpos
  · rintro ⟨units, hne, hshort, rfl, rfl⟩
    rw [widenedLengthFrom?_encode hshort, Nat.zero_add]
    refine Option.filter_eq_some_iff.mpr ⟨rfl, ?_⟩
    cases units with
    | nil => exact absurd rfl hne
    | cons unit units =>
        simp [Avcc.encode, Avcc.record, Bytes.be32]

/-- Behind a complete record the copy goes on with its unit copied. -/
theorem widen_of_take? {b unit rest : Bytes} (h : take? b = some (unit, rest)) :
    widen b = Avcc.record unit ++ widen rest := by
  rw [widen]
  split
  · rename_i unit' rest' hread
    rw [h] at hread
    obtain ⟨rfl, rfl⟩ := Prod.mk.inj (Option.some.inj hread)
    rfl
  · rename_i hread
    rw [h] at hread
    simp at hread

theorem widen_nil : widen [] = [] := by
  rw [widen]
  split
  · rename_i hread
    simp [take?] at hread
  · rfl

/-- The copy of a row of records has the same NAL units behind lengths of four
octets. -/
theorem widen_encode {units : List Bytes} (h : Short units) :
    widen (encode units) = Avcc.encode units := by
  induction units with
  | nil => exact widen_nil
  | cons unit units ih =>
      have htake : take? (encode (unit :: units)) = some (unit, encode units) :=
        take?_eq_some_iff.mpr ⟨h unit List.mem_cons_self, encode_cons unit units⟩
      rw [widen_of_take? htake, ih (fun u hu => h u (List.mem_cons_of_mem _ hu))]
      simp [Avcc.encode]

end Aggregation

namespace Avcc

/-- A record can be taken off exactly where one was put. -/
theorem take?_eq_some_iff {b unit rest : Bytes} :
    take? b = some (unit, rest) ↔ unit.length < 2 ^ 32 ∧ b = record unit ++ rest := by
  constructor
  · intro h
    unfold take? at h
    split at h
    · rename_i o₀ o₁ o₂ o₃ behind
      obtain ⟨rfl, hlen⟩ := Bytes.splitExact?_eq_some_iff.mp h
      have hlt := (Bytes.word32 o₀ o₁ o₂ o₃).toNat_lt
      have hword : UInt32.ofNat unit.length = Bytes.word32 o₀ o₁ o₂ o₃ := by
        rw [hlen, UInt32.ofNat_toNat]
      exact ⟨by omega, by simp [record, hword, Bytes.be32_word32]⟩
    · simp at h
  · rintro ⟨hlt, rfl⟩
    have hlen : (UInt32.ofNat unit.length).toNat = unit.length :=
      UInt32.toNat_ofNat_of_lt hlt
    simp only [record, Bytes.be32, List.cons_append, List.nil_append, take?, Bytes.word32_be32]
    exact Bytes.splitExact?_eq_some_iff.mpr ⟨rfl, hlen.symm⟩

theorem encode_cons (unit : Bytes) (units : List Bytes) :
    encode (unit :: units) = record unit ++ encode units := by
  simp [encode]

theorem encode_append (units more : List Bytes) :
    encode (units ++ more) = encode units ++ encode more :=
  List.flatMap_append

/-- In front of a complete record a reader gives its unit and goes on behind it.
-/
theorem readAll_of_take? {b unit rest : Bytes} (h : take? b = some (unit, rest)) :
    readAll b = (unit :: (readAll rest).1, (readAll rest).2) := by
  rw [readAll]
  split
  · rename_i unit' rest' hread
    rw [h] at hread
    obtain ⟨rfl, rfl⟩ := Prod.mk.inj (Option.some.inj hread)
    rfl
  · rename_i hread
    rw [h] at hread
    simp at hread

/-- In front of no complete record a reader gives nothing. -/
theorem readAll_of_take?_eq_none {b : Bytes} (h : take? b = none) :
    readAll b = ([], (next b).2) := by
  rw [readAll]
  split
  · rename_i hread
    rw [h] at hread
    simp at hread
  · rfl

/-- **Access units read back.**  A reader gives the NAL units that were
written, as long as their lengths fit four octets. -/
theorem records_encode {units : List Bytes} (h : ∀ unit ∈ units, unit.length < 2 ^ 32) :
    records (encode units) = units := by
  unfold records
  induction units with
  | nil => rw [readAll_of_take?_eq_none (b := encode []) rfl]
  | cons unit units ih =>
      have htake : take? (encode (unit :: units)) = some (unit, encode units) :=
        take?_eq_some_iff.mpr ⟨h unit List.mem_cons_self, encode_cons unit units⟩
      rw [readAll_of_take? htake]
      exact congrArg (unit :: ·) (ih (fun u hu => h u (List.mem_cons_of_mem _ hu)))

end Avcc

end RtpReassembly
