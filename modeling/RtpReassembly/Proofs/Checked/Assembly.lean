import RtpReassembly.Proofs.Checked.Datagram
import RtpReassembly.Proofs.Row
import Mathlib.Algebra.GroupWithZero.Nat

/-!
# Assembly with partial operations

What is at the head of the buffer is read by indices and slices here.  Nothing in
a body says how long it is, so this goes well for two reasons only: the records
of an aggregation are copied after all of them were checked, and a packet is
placed as a fragment only if its body has the prefix of one.

* `widenedLengthAt_eq`, `widenAt_eq`: the two walks along an aggregation;
* `rejoinChecked_eq`: rejoining a run is defined exactly if its fragments have
  their prefixes;
* `assembleChecked_eq`: so the head of a buffer of classified slots can be looked
  at, and comes to what `assemble` makes of it.
-/

namespace RtpReassembly

open Checked

namespace Aggregation

/-- The length of records from index `i` on with four octets for each length,
after others of widened length `total`; `none` if a record is cut off or there is
none at all. -/
def widenedLengthAt (b : Bytes) (total i : Nat) : Checked (Option Nat) :=
  if _h : i < b.length then do
    if (← sub b.length i) < 2 then return none
    else
      let size := (← Rtp.word16At b i).toNat
      if (← sub (← sub b.length i) 2) < size then return none
      else widenedLengthAt b (total + (4 + size)) (i + (2 + size))
  else return if 0 < total then some total else none
termination_by b.length - i

/-- The records from index `i` on with four octets for each length. -/
def widenAt (b : Bytes) (i : Nat) : Checked Bytes :=
  if _h : i < b.length then do
    let size := (← Rtp.word16At b i).toNat
    let unit ← slice b (i + 2) (i + 2 + size)
    return Bytes.be32 (UInt32.ofNat size) ++ unit ++ (← widenAt b (i + (2 + size)))
  else return []
termination_by b.length - i

/-- There is no record in a single octet. -/
theorem take?_eq_none_of_length {b : Bytes} (h : b.length < 2) : take? b = none := by
  match b with
  | [] | [_] => rfl
  | _ :: _ :: _ => simp only [List.length_cons] at h; omega

/-- The record at an index is what stands behind its length, if there is as much. -/
theorem take?_drop {b : Bytes} {i : Nat} (h : i + 2 ≤ b.length) :
    ∃ word, Rtp.word16At b i = some word ∧
      take? (b.drop i) = if b.length - i - 2 < word.toNat then none
        else some ((b.drop (i + 2)).take word.toNat, b.drop (i + (2 + word.toNat))) := by
  have hlength : (b.drop i).length = b.length - i := List.length_drop
  match hdrop : b.drop i with
  | [] | [_] =>
      rw [hdrop] at hlength
      simp only [List.length_cons, List.length_nil] at hlength
      omega
  | hi :: lo :: rest =>
      rw [hdrop] at hlength
      simp only [List.length_cons] at hlength
      have hrest : b.drop (i + 2) = rest := by
        rw [← List.drop_drop, hdrop]
        rfl
      refine ⟨Bytes.word16 hi lo, Rtp.word16At_of_drop hdrop, ?_⟩
      rw [take?]
      split
      · exact Bytes.splitExact?_eq_none_iff.mpr (by omega)
      · have hbehind : b.drop (i + (2 + (Bytes.word16 hi lo).toNat)) =
            rest.drop (Bytes.word16 hi lo).toNat := by
          rw [← hrest, List.drop_drop, Nat.add_assoc]
        rw [hrest, hbehind]
        exact Bytes.splitExact?_eq_some_iff.mpr
          ⟨(List.take_append_drop _ _).symm, List.length_take_of_le (by omega)⟩

/-- **The check stays inside of the aggregation.** -/
theorem widenedLengthAt_eq {b : Bytes} (total : Nat) {i : Nat} (h : i ≤ b.length) :
    widenedLengthAt b total i =
      some ((widenedLengthFrom? total (b.drop i)).filter (0 < ·)) := by
  induction hleft : b.length - i using Nat.strongRecOn generalizing total i with
  | ind left ih =>
      rw [widenedLengthAt]
      by_cases hend : i < b.length
      · have hne : b.drop i ≠ [] := by simpa using hend
        rw [dif_pos hend, sub_eq h]
        simp only [Option.bind_eq_bind, Option.bind_some]
        by_cases hshort : b.length - i < 2
        · have htake : take? (b.drop i) = none :=
            take?_eq_none_of_length (by rwa [List.length_drop])
          rw [if_pos hshort, widenedLengthFrom?_eq_none total hne htake]
          rfl
        · obtain ⟨word, hword, htake⟩ := take?_drop (b := b) (i := i) (by omega)
          rw [if_neg hshort, hword, sub_eq (by omega)]
          simp only [Option.bind_some]
          by_cases hcut : b.length - i - 2 < word.toNat
          · rw [if_pos hcut] at htake ⊢
            rw [widenedLengthFrom?_eq_none total hne htake]
            rfl
          · rw [if_neg hcut] at htake ⊢
            have hunit : ((b.drop (i + 2)).take word.toNat).length = word.toNat := by
              rw [List.length_take, List.length_drop]
              omega
            rw [ih (b.length - (i + (2 + word.toNat))) (by omega) _ (by omega) rfl,
              widenedLengthFrom?_of_take? total htake, hunit, Nat.add_assoc]
      · have hdrop : b.drop i = [] := List.drop_eq_nil_of_le (by omega)
        rw [dif_neg hend, hdrop, widenedLengthFrom?]
        by_cases hpos : 0 < total <;> simp [Option.filter, hpos]

/-- **The copy stays inside of the aggregation**, once the check was passed. -/
theorem widenAt_eq {b : Bytes} {total n i : Nat} (h : i ≤ b.length)
    (checked : widenedLengthFrom? total (b.drop i) = some n) :
    widenAt b i = some (widen (b.drop i)) := by
  induction hleft : b.length - i using Nat.strongRecOn generalizing total i with
  | ind left ih =>
      rw [widenAt]
      by_cases hend : i < b.length
      · have hne : b.drop i ≠ [] := by simpa using hend
        have hrecord : take? (b.drop i) ≠ none := by
          intro hnone
          simp [widenedLengthFrom?_eq_none total hne hnone] at checked
        have hroom : i + 2 ≤ b.length := by
          by_contra hshort
          exact hrecord (take?_eq_none_of_length (by rw [List.length_drop]; omega))
        obtain ⟨word, hword, htake⟩ := take?_drop hroom
        by_cases hcut : b.length - i - 2 < word.toNat
        · rw [if_pos hcut] at htake
          exact absurd htake hrecord
        · rw [if_neg hcut] at htake
          have hunit : ((b.drop (i + 2)).take word.toNat).length = word.toNat := by
            rw [List.length_take, List.length_drop]
            omega
          rw [widenedLengthFrom?_of_take? total htake] at checked
          have hrest := ih (b.length - (i + (2 + word.toNat))) (by omega) (by omega) checked rfl
          rw [dif_pos hend, hword, widen_of_take? htake, Avcc.record, hunit]
          simp only [Option.bind_eq_bind, Option.bind_some]
          rw [slice_eq (by omega) (by omega), Nat.add_sub_cancel_left]
          simp only [Option.bind_some, hrest]
          rfl
      · have hdrop : b.drop i = [] := List.drop_eq_nil_of_le (by omega)
        rw [dif_neg hend, hdrop, widen_nil]
        rfl

end Aggregation

/-- The placement of an H.265 body, whose first octet is read at its index. -/
def Placement.ofH265Checked (body : Bytes) : Checked Placement :=
  if body.length < Codec.h265.nalHeaderLength then return .unknown
  else do
    let t := Codec.h265.unitType (← body[0]?)
    if isH265Single t then return .single
    else if t = 48 then return .aggregationStart
    else if t = 49 then return (body[2]?.map ofFragmentOctet).getD .unknown
    else return .unknown

/-- The placement of a body. -/
def Placement.ofBodyChecked : Codec → Bytes → Checked Placement
  | .h264, body => return ofH264 body
  | .h265, body => ofH265Checked body

/-- The octets of the NAL unit header of a fragmented unit; two, whatever the
codec. -/
def Codec.rebuiltHeaderChecked : Codec → Bytes → Checked Bytes
  | .h264, body => do
    let indicator : UInt8 ← body[0]?
    let fragment : UInt8 ← body[1]?
    return [(indicator &&& 0xE0) ||| (fragment &&& 0x1F), 0]
  | .h265, body => do
    let fragment : UInt8 ← body[2]?
    let first : UInt8 ← body[0]?
    let second : UInt8 ← body[1]?
    return [(first &&& 0x81) ||| ((fragment &&& 0x3F) <<< (1 : UInt8)), second]

/-- The payload made of a complete run of fragments: first its length is added
up, then the fragments are copied. -/
def rejoinChecked (codec : Codec) (start : Slot) (rest : List Slot) : Checked Bytes := do
  let header ← codec.rebuiltHeaderChecked start.body
  let lengths ← (start :: rest).mapM fun s => sub s.body.length codec.fragmentPrefixLength
  let octets ← slice header 0 codec.nalHeaderLength
  let pieces ← (start :: rest).mapM fun s =>
    slice s.body codec.fragmentPrefixLength s.body.length
  return Bytes.be32 (UInt32.ofNat (codec.nalHeaderLength + lengths.sum)) ++ octets ++
    pieces.flatten

/-- The access unit with a payload and the time of a packet; a time can only be
told by a clock that ticks. -/
def Format.unitAtChecked (f : Format) (timestamp : UInt32) (payload : Bytes) :
    Checked AccessUnit :=
  if f.ticksPerMs = 0 then none else some (f.unitAt timestamp payload)

/-- What a run of fragments amounts to that starts with `start`. -/
def assembleRunChecked (f : Format) (start : Slot) (rest : List Slot) : Checked Outcome :=
  let (middles, behind) := splitMiddles start.seq rest
  match behind with
  | [] => return .incomplete none
  | s :: _ =>
    if ¬ SeqNum.follows (lastSeq start middles) s.seq then return .gap (1 + middles.length)
    else if s.placement ≠ .fragmentEnd then return .broken (1 + middles.length)
    else do
      let payload ← rejoinChecked f.codec start (middles ++ [s])
      let unit ← f.unitAtChecked s.packet.timestamp payload
      return .emitted unit (2 + middles.length) s.seq

/-- What an aggregation at the head amounts to. -/
def assembleAggregationChecked (f : Format) (head : Slot) : Checked Outcome := do
  let records := head.body.drop f.codec.aggregationSkip
  match ← Aggregation.widenedLengthAt records 0 0 with
  | some _ =>
    let unit ← f.unitAtChecked head.packet.timestamp (← Aggregation.widenAt records 0)
    return .emitted unit 1 head.seq
  | none => return .dropped (.malformedAggregation records.length) head.seq

/-- What the head of the buffer amounts to. -/
def assembleChecked (f : Format) : ReorderBuffer → Checked Outcome
  | [] => return .incomplete none
  | head :: rest =>
    match head.placement with
    | .single => do
      let unit ← f.unitAtChecked head.packet.timestamp (Avcc.record head.body)
      return .emitted unit 1 head.seq
    | .aggregationStart | .aggregationMember => assembleAggregationChecked f head
    | .fragmentStart => assembleRunChecked f head rest
    | .fragmentMiddle | .fragmentEnd => return .incomplete (some head)
    | .unknown => return .dropped .unsupported head.seq

/-- A body is classified without looking behind its end. -/
theorem Placement.ofBodyChecked_eq (codec : Codec) (body : Bytes) :
    ofBodyChecked codec body = some (ofBody codec body) := by
  cases codec with
  | h264 => rfl
  | h265 =>
      rcases body with _ | ⟨first, _ | ⟨second, rest⟩⟩
      · rfl
      · rfl
      · have hthird : (first :: second :: rest)[2]? = rest.head? := by cases rest <;> rfl
        simp only [ofBodyChecked, ofBody, ofH265Checked, ofH265, Codec.nalHeaderLength,
          List.length_cons, List.getElem?_cons_zero, hthird]
        grind

/-- The octets of the rebuilt header are those that its codec has; they are not
there exactly when the body is too short for a fragment. -/
theorem Codec.slice_rebuiltHeaderChecked (codec : Codec) (body : Bytes) :
    ((codec.rebuiltHeaderChecked body).bind fun header =>
      slice header 0 codec.nalHeaderLength) = codec.rebuiltHeaderOctets? body := by
  cases codec with
  | h264 =>
      match body with
      | [] | [_] | _ :: _ :: _ => rfl
  | h265 =>
      match body with
      | [] | [_] | [_, _] | _ :: _ :: _ :: _ => rfl

/-- **Rejoining is defined exactly if it succeeds.** -/
theorem rejoinChecked_eq (codec : Codec) (start : Slot) (rest : List Slot) :
    rejoinChecked codec start rest = (rejoin? codec start rest).map Avcc.record := by
  by_cases hlong : ∀ s ∈ start :: rest, codec.fragmentPrefixLength ≤ s.body.length
  · obtain ⟨octets, hoctets⟩ := Option.isSome_iff_exists.mp
      (Codec.isSome_rebuiltHeaderOctets? (hlong start List.mem_cons_self))
    obtain ⟨header, hheader, hslice⟩ := Option.bind_eq_some_iff.mp
      ((codec.slice_rebuiltHeaderChecked start.body).trans hoctets)
    have hlengths : ((start :: rest).mapM fun s =>
        sub s.body.length codec.fragmentPrefixLength) = some _ :=
      mapM_eq_some fun s hs => sub_eq (hlong s hs)
    have hpieces : ((start :: rest).mapM fun s =>
        slice s.body codec.fragmentPrefixLength s.body.length) =
          some ((start :: rest).map fun s => s.body.drop codec.fragmentPrefixLength) :=
      mapM_eq_some fun s hs => by
        rw [slice_eq (hlong s hs) (Nat.le_refl _), List.take_of_length_le (by simp)]
    have hdata := fragmentsData?_eq_some_iff.mpr ⟨hlong, rfl⟩
    simp only [rejoinChecked, rejoin?, hheader, hlengths, hslice, hpieces, hoctets, hdata,
      Option.bind_eq_bind, Option.bind_some, Option.map_some, Avcc.record]
    have hlength : octets.length = codec.nalHeaderLength := length_of_slice hslice
    rw [List.length_append, hlength, List.length_flatMap]
    simp [List.flatMap_def]
  · push Not at hlong
    obtain ⟨s, hs, hshort⟩ := hlong
    have hlengths : ((start :: rest).mapM fun s =>
        sub s.body.length codec.fragmentPrefixLength) = none :=
      mapM_eq_none hs (if_neg (Nat.not_le_of_lt hshort))
    have hdata : fragmentsData? codec (start :: rest) = none := by
      rw [Option.eq_none_iff_forall_ne_some]
      intro data hdata
      exact Nat.not_le_of_lt hshort ((fragmentsData?_eq_some_iff.mp hdata).1 s hs)
    simp [rejoinChecked, rejoin?, hlengths, hdata]

/-! ## What is at the head -/

variable {f : Format}

/-- A clock that ticks can be divided by. -/
theorem Format.unitAtChecked_eq (ticks : 0 < f.ticksPerMs) (timestamp : UInt32)
    (payload : Bytes) : f.unitAtChecked timestamp payload = some (f.unitAt timestamp payload) :=
  if_neg (Nat.ne_of_gt ticks)

/-- **A run can be rejoined**, since all its fragments were classified. -/
theorem assembleRunChecked_eq {start : Slot} {rest : List Slot} (ticks : 0 < f.ticksPerMs)
    (placement : start.placement = .fragmentStart)
    (classified : ∀ s ∈ start :: rest, s.Classified f.codec) :
    assembleRunChecked f start rest = some (assembleRun f start rest) := by
  obtain ⟨middles, behind, rfl, run, houtcome⟩ := assembleRun_outcome (f := f) placement rest
  rw [assembleRunChecked, assembleRun, houtcome.split run]
  cases behind with
  | nil => rfl
  | cons s behind =>
      simp only
      split
      · rfl
      · split
        · rfl
        · rename_i hend
          have hfront : start :: (middles ++ [s]) <+: start :: (middles ++ s :: behind) :=
            ⟨behind, by simp⟩
          obtain ⟨unit, hunit⟩ := @OpenRun.exists_rejoin? f.codec start s middles run
            (not_not.mp hend) fun t ht => classified t (hfront.subset ht)
          simp [rejoinChecked_eq, hunit, Format.unitAtChecked_eq ticks]

/-- **An aggregation can be copied**, since its records were checked. -/
theorem assembleAggregationChecked_eq (ticks : 0 < f.ticksPerMs) (head : Slot) :
    assembleAggregationChecked f head = some (assembleAggregation f head) := by
  simp only [assembleAggregationChecked, assembleAggregation,
    Aggregation.widenedLengthAt_eq 0 (Nat.zero_le _), List.drop_zero, Aggregation.widenedLength?]
  cases hcheck : (Aggregation.widenedLengthFrom? 0
      (head.body.drop f.codec.aggregationSkip)).filter (0 < ·) with
  | none => rfl
  | some n =>
      have hcopy := Aggregation.widenAt_eq (i := 0) (Nat.zero_le _)
        (Option.filter_eq_some_iff.mp hcheck).1
      simp only [List.drop_zero] at hcopy
      simp [hcopy, Format.unitAtChecked_eq ticks]

/-- **The head of a buffer can be looked at** if all slots are classified. -/
theorem assembleChecked_eq {b : ReorderBuffer} (ticks : 0 < f.ticksPerMs)
    (classified : ∀ s ∈ b, s.Classified f.codec) :
    assembleChecked f b = some (assemble f b) := by
  cases b with
  | nil => rfl
  | cons head rest =>
      simp only [assembleChecked, assemble]
      cases hp : head.placement with
      | single => simp [Format.unitAtChecked_eq ticks]
      | aggregationStart | aggregationMember => exact assembleAggregationChecked_eq ticks head
      | fragmentStart => exact assembleRunChecked_eq ticks hp classified
      | fragmentMiddle | fragmentEnd | unknown => rfl

/-- A slot that claims a placement which its body does not have would stop it. -/
example : assembleChecked ⟨.h264, 90⟩ [⟨.simple 96 false 1 0 1 [0x7C], .fragmentStart⟩,
    ⟨.simple 96 true 2 0 1 [0x7C, 0x45], .fragmentEnd⟩] = none := by
  decide +kernel

end RtpReassembly
