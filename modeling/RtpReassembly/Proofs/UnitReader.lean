import RtpReassembly.Proofs.Records
import RtpReassembly.Proofs.Checked.Datagram

/-!
# Readers of access units

A reader stands in front of what it has not read of a payload.  Asked for the next NAL
unit, it gives the one whose record begins there and stands behind it then, or it gives
none.  The payload may be anything: a length in it is only believed as far as there are
octets.

* `standing`, `answer`: where a reader stands after some calls, and what it answers next;
* `nextChecked_eq`: a call does not read past the end;
* `next_record`, `next_of_cutOff`: what a call comes to in front of a complete record, and in
  front of none;
* `Parts`: a payload falls into complete records and a rest in front of which there is none,
  and does so in one way only (`exists_parts`, `Parts.unique`);
* `AccessUnit.nalUnits_exact` is the main statement: the NAL units of an access unit are what
  a reader gives of it, and their records reach as far as complete records do.
-/

namespace RtpReassembly

open Checked

namespace Avcc

/-- Where a reader that starts in front of `payload` stands after `n` calls. -/
def standing : Bytes → Nat → Bytes
  | payload, 0 => payload
  | payload, n + 1 => standing (next payload).2 n

/-- What a reader that starts in front of `payload` answers to the call that follows the first
`n`. -/
def answer (payload : Bytes) (n : Nat) : Option Bytes :=
  (next (standing payload n)).1

/-- NAL units whose lengths fit four octets. -/
def Fit (units : List Bytes) : Prop :=
  ∀ unit ∈ units, unit.length < 2 ^ 32

/-- There is no complete record in front: not all of a length is there, or it is larger than
what stands behind it. -/
def CutOff (rest : Bytes) : Prop :=
  rest.length < 4 ∨ ∃ declared behind,
    rest = Bytes.be32 declared ++ behind ∧ behind.length < declared.toNat

/-- One step of a reader that reads by offsets. -/
def nextChecked (rest : Bytes) : Checked (Option Bytes × Bytes) :=
  if rest.length < 4 then return (none, rest)
  else do
    let declared := (← Rtp.word32At rest 0).toNat
    if (← sub rest.length 4) < declared then return (none, [])
    else
      let behind ← slice rest 4 rest.length
      return (some (← slice behind 0 declared), ← slice behind declared behind.length)

/-- A reader of `payload` gives `units` one after the other and nothing from then on, and
no call reads past the end. -/
structure ReadsOut (payload : Bytes) (units : List Bytes) : Prop where
  inside : ∀ n, nextChecked (standing payload n) = some (next (standing payload n))
  gives : ∀ n (h : n < units.length), answer payload n = some units[n]
  ends : ∀ n, units.length ≤ n → answer payload n = none

/-- The records of `units` are at the front of `payload`. -/
def Opens (units : List Bytes) (payload : Bytes) : Prop :=
  Fit units ∧ encode units <+: payload

/-- The records of `units` are the longest row of complete records at the front of `payload`,
which goes on with none. -/
structure LongestRow (units : List Bytes) (payload : Bytes) : Prop where
  opens : Opens units payload
  longest : ∀ row, Opens row payload → encode row <+: encode units
  cutOff : CutOff (payload.drop (encode units).length)

/-- A payload falls into the records of `units` and a rest that does not begin with another. -/
structure Parts (payload : Bytes) (units : List Bytes) (rest : Bytes) : Prop where
  fit : Fit units
  eq : payload = encode units ++ rest
  cutOff : CutOff rest

/-! ## One call -/

/-- No record is taken exactly where there is no complete one. -/
theorem take?_eq_none_iff {rest : Bytes} : take? rest = none ↔ CutOff rest := by
  constructor
  · intro h
    by_cases hshort : rest.length < 4
    · exact .inl hshort
    · obtain ⟨a, b, c, d, behind, rfl, -⟩ := Rtp.exists_quad (n := 0) (b := rest) (by omega)
      refine .inr ⟨Bytes.word32 a b c d, behind, ?_, Bytes.splitExact?_eq_none_iff.mp h⟩
      rw [Bytes.be32_word32]
      rfl
  · rintro (hshort | ⟨declared, behind, rfl, hlt⟩)
    · unfold take?
      split
      · simp only [List.length_cons] at hshort
        omega
      · rfl
    · simp only [Bytes.be32, List.cons_append, List.nil_append, take?, Bytes.word32_be32]
      exact Bytes.splitExact?_eq_none_iff.mpr hlt

/-- In front of a complete record. -/
theorem next_record {unit : Bytes} (h : unit.length < 2 ^ 32) (rest : Bytes) :
    next (record unit ++ rest) = (some unit, rest) := by
  rw [next, take?_eq_some_iff.mpr ⟨h, rfl⟩]

/-- In front of none.  A short tail stays and a record that is cut off is passed over, and
either way there is none afterwards. -/
theorem next_of_cutOff {rest : Bytes} (h : CutOff rest) :
    (next rest).1 = none ∧ CutOff (next rest).2 := by
  rw [next, take?_eq_none_iff.mpr h]
  refine ⟨rfl, .inl ?_⟩
  dsimp only
  split
  · assumption
  · simp

/-- **A call stays inside of the payload**, whatever a length says. -/
theorem nextChecked_eq (rest : Bytes) : nextChecked rest = some (next rest) := by
  by_cases hshort : rest.length < 4
  · rw [nextChecked, if_pos hshort, next, take?_eq_none_iff.mpr (.inl hshort), if_pos hshort]
    rfl
  · obtain ⟨a, b, c, d, behind, rfl, -⟩ := Rtp.exists_quad (n := 0) (b := rest) (by omega)
    have hlength : (a :: b :: c :: d :: behind).length = behind.length + 4 := rfl
    have hbehind : slice (a :: b :: c :: d :: behind) 4 (behind.length + 4) = some behind := by
      rw [slice_eq (by omega) (by omega)]
      simp
    rw [nextChecked, if_neg hshort, hlength, sub_eq (by omega), hbehind]
    simp only [Rtp.word32At_zero, Option.bind_eq_bind, Option.bind_some, Nat.add_sub_cancel,
      next, take?]
    by_cases hcut : behind.length < (Bytes.word32 a b c d).toNat
    · rw [if_pos hcut, Bytes.splitExact?_eq_none_iff.mpr hcut, if_neg hshort]
      rfl
    · -- slices at the declared length are only taken here, where there are as many octets
      have hle : (Bytes.word32 a b c d).toNat ≤ behind.length := Nat.not_lt.mp hcut
      have hsplit : Bytes.splitExact? (Bytes.word32 a b c d).toNat behind =
          some (behind.take (Bytes.word32 a b c d).toNat,
            behind.drop (Bytes.word32 a b c d).toNat) :=
        if_pos (List.length_take_of_le hle)
      rw [if_neg hcut, hsplit, slice_eq (Nat.zero_le _) hle, slice_eq hle (Nat.le_refl _)]
      simp

/-! ## All calls -/

/-- Where no record is complete, none is from then on. -/
theorem cutOff_standing {rest : Bytes} (h : CutOff rest) (n : Nat) : CutOff (standing rest n) := by
  induction n generalizing rest with
  | zero => exact h
  | succ n ih => exact ih (next_of_cutOff h).2

/-- A reader never goes on after it gave none. -/
theorem answer_of_cutOff {rest : Bytes} (h : CutOff rest) (n : Nat) : answer rest n = none :=
  (next_of_cutOff (cutOff_standing h n)).1

/-- A reader in front of a record goes on as one that starts behind it. -/
theorem answer_record_succ {unit : Bytes} (h : unit.length < 2 ^ 32) (rest : Bytes) (n : Nat) :
    answer (record unit ++ rest) (n + 1) = answer rest n := by
  rw [answer, standing, next_record h]
  rfl

namespace Parts

variable {payload rest rest' : Bytes} {units units' : List Bytes}

/-- Records in front of a payload are the first of its parts. -/
theorem append (parts : Parts payload units rest) {row : List Bytes} (fit : Fit row) :
    Parts (encode row ++ payload) (row ++ units) rest where
  fit := List.forall_mem_append.mpr ⟨fit, parts.fit⟩
  eq := by rw [encode_append, List.append_assoc, ← parts.eq]
  cutOff := parts.cutOff

/-- A reader gives the units of the records in turn, and then none. -/
theorem answer (parts : Parts payload units rest) (n : Nat) : answer payload n = units[n]? := by
  obtain ⟨fit, rfl, cutOff⟩ := parts
  induction units generalizing n with
  | nil => exact answer_of_cutOff cutOff n
  | cons unit units ih =>
      obtain ⟨hunit, hunits⟩ := List.forall_mem_cons.mp fit
      rw [encode_cons, List.append_assoc]
      -- all calls but the first are those of a reader that starts behind the first record
      cases n with
      | zero => exact congrArg Prod.fst (next_record hunit _)
      | succ n => exact (answer_record_succ hunit _ n).trans (ih n hunits)

/-- There is one way only, since the answers of a reader tell the units. -/
theorem unique (parts : Parts payload units rest) (parts' : Parts payload units' rest') :
    units = units' :=
  List.ext_getElem? fun n => (parts.answer n).symm.trans (parts'.answer n)

end Parts

/-- Any payload falls into complete records and a rest, and the records are those that
are read. -/
theorem exists_parts (payload : Bytes) : ∃ rest, Parts payload (records payload) rest := by
  unfold records
  fun_induction readAll payload with
  | case1 payload unit behind hread units left hrest ih =>
      obtain ⟨rest, parts⟩ := ih
      obtain ⟨hunit, rfl⟩ := take?_eq_some_iff.mp hread
      rw [hrest] at parts
      exact ⟨rest, by simpa [encode] using parts.append (List.forall_mem_singleton.mpr hunit)⟩
  | case2 payload hread =>
      exact ⟨payload, by simp [Fit], rfl, take?_eq_none_iff.mp hread⟩

/-- NAL units whose records are at the front are the first ones that are read. -/
theorem Opens.isPrefix {row : List Bytes} {payload : Bytes} (h : Opens row payload) :
    row <+: records payload := by
  obtain ⟨fit, behind, rfl⟩ := h
  obtain ⟨rest, parts⟩ := exists_parts behind
  obtain ⟨rest', parts'⟩ := exists_parts (encode row ++ behind)
  -- the records behind the row follow those of the row
  rw [parts'.unique (parts.append fit)]
  exact List.prefix_append _ _

end Avcc

namespace AccessUnit

open Avcc

/-- **Reading an access unit.**  Of NAL units behind their lengths a reader gives just these
units.  Of any payload it gives finitely many units and then none for good, without
reading past the end; their records stand one behind the other from the front on as far as
complete records go, and what is left over is too short for a length or for the length it
begins with. -/
theorem nalUnits_exact (u : AccessUnit) :
    (∀ units, Fit units → u.payload = encode units → u.nalUnits = units) ∧
      ReadsOut u.payload u.nalUnits ∧ LongestRow u.nalUnits u.payload := by
  obtain ⟨rest, parts⟩ := exists_parts u.payload
  refine ⟨fun units fit hpayload => ?_, ?_, ?_⟩
  · rw [nalUnits, hpayload]
    exact records_encode fit
  · exact {
      inside := fun n => nextChecked_eq _
      gives := fun n h => (parts.answer n).trans (List.getElem?_eq_getElem h)
      ends := fun n h => (parts.answer n).trans (List.getElem?_eq_none h) }
  · refine ⟨⟨parts.fit, rest, parts.eq.symm⟩, fun row hrow => ?_, ?_⟩
    · obtain ⟨more, hmore⟩ := hrow.isPrefix
      exact ⟨encode more, by rw [← encode_append, hmore]; rfl⟩
    · rw [parts.eq]
      exact List.drop_left.symm ▸ parts.cutOff

/-- Three records, of which one is empty, by themselves and in front of one that says it
is longer than all that is left. -/
theorem nalUnits_exact_of_excess_length :
    let units : List Bytes := [[0x67, 0x42], [], [0x68]]
    let whole : AccessUnit :=
      ⟨.h264, 40, [0, 0, 0, 2, 0x67, 0x42, 0, 0, 0, 0, 0, 0, 0, 1, 0x68]⟩
    let cut : AccessUnit :=
      ⟨.h264, 40, whole.payload ++ [0xFF, 0xFF, 0xFF, 0xFF, 0, 0, 0, 0]⟩
    Fit units ∧ whole.payload = encode units ∧ whole.nalUnits = units ∧
      ReadsOut cut.payload units ∧ LongestRow units cut.payload := by
  intro units whole cut
  have fit : Fit units := by simp [Fit, units]
  have hwhole : whole.payload = encode units := by decide
  obtain ⟨-, hreads, hrow⟩ := nalUnits_exact cut
  have hcut : cut.nalUnits = units := by
    obtain ⟨rest, parts⟩ := exists_parts cut.payload
    exact parts.unique ⟨fit, by rw [← hwhole],
      .inr ⟨0xFFFFFFFF, [0, 0, 0, 0], by decide, by decide⟩⟩
  rw [hcut] at hreads hrow
  exact ⟨fit, hwhole, (nalUnits_exact whole).1 units fit hwhole, hreads, hrow⟩

end AccessUnit

end RtpReassembly
