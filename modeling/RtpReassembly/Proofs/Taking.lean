import RtpReassembly.Proofs.Checked.Assembly
import Mathlib.Order.Bounds.Basic

/-!
# What is taken off the head of the buffer

An outcome says how many packets it is about and where they end, and all that
decides about the rest of the buffer relies on that.  So this file says exactly
which packets leave with an outcome, and which outcome the head has.

* `Removes` is what leaving the buffer means, `Emits` and `Drops` what leaves;
* `isGreatest_opensRun`: the walk along a run ends where the longest open run at
  the head does;
* `takeUnit_exact`: the outcomes of classified packets;
* `takeUnit_aggregation_iff`: an aggregation is copied exactly if it consists of
  complete records, and then the check and the copy go the same way.
-/

namespace RtpReassembly

/-- The number of the last packet that leaves with an outcome, if any does. -/
def Outcome.last? : Outcome → Option SeqNum
  | .emitted _ _ last | .dropped _ last => some last
  | .incomplete _ | .gap _ | .broken _ => none

/-- The first `k` packets have left, a contiguous row that ends with the number
`last`. -/
structure Removes (b left : ReorderBuffer) (k : Nat) (last : SeqNum) : Prop where
  nonempty : 1 ≤ k
  le : k ≤ b.length
  left : left = b.drop k
  contiguous : Contiguous (b.take k)
  last : (b[k - 1]?).map Slot.seq = some last

/-- A unit is emitted that the first `k` packets make, and they have left. -/
def Emits (f : Format) (b : ReorderBuffer) (k : Nat) : Outcome × ReorderBuffer → Prop
  | (o, left) => ∃ unit last, o = .emitted unit k last ∧ Forms f (b.take k) unit ∧
      Removes b left k last

/-- The first packet is dropped, and it has left. -/
def Drops (b : ReorderBuffer) : Outcome × ReorderBuffer → Prop
  | (o, left) => ∃ cause last, o = .dropped cause last ∧ Removes b left 1 last

/-- The first `r` packets are an open run. -/
def OpensRun (b : ReorderBuffer) (r : Nat) : Prop :=
  ∃ first others behind, b = first :: (others ++ behind) ∧ OpenRun first others ∧
    r = others.length + 1

/-! ## Rows at the head -/

theorem getElem?_last (first : Slot) (others behind : List Slot) :
    ((first :: (others ++ behind))[others.length]?).map Slot.seq = some (lastSeq first others) := by
  induction others generalizing first with
  | nil => rfl
  | cons s others ih => simpa using ih s

theorem getElem?_behind (first : Slot) (others behind : List Slot) :
    (first :: (others ++ behind))[others.length + 1]? = behind.head? := by
  simp [List.getElem?_append_right, List.head?_eq_getElem?]

/-- A contiguous row at the head is removed as a whole, with the number of its
last packet. -/
theorem removes_of_contiguous {first : Slot} {others : List Slot} (behind : List Slot)
    (h : Contiguous (first :: others)) :
    Removes (first :: (others ++ behind)) behind (others.length + 1) (lastSeq first others) where
  nonempty := Nat.succ_pos _
  le := by simp
  left := by simp
  contiguous := by simpa using h
  last := getElem?_last first others behind

/-- A packet by itself is such a row. -/
theorem removes_head (head : Slot) (tail : List Slot) :
    Removes (head :: tail) tail 1 head.seq :=
  @removes_of_contiguous head [] tail (contiguous_singleton head)

/-- A row that makes a unit leaves with it. -/
theorem Forms.emits {f : Format} {first : Slot} {others : List Slot} {unit : AccessUnit}
    (h : Forms f (first :: others) unit) (behind : List Slot) :
    Emits f (first :: (others ++ behind)) (others.length + 1)
      (.emitted unit (others.length + 1) (lastSeq first others), behind) :=
  ⟨unit, _, rfl, by simpa using h, removes_of_contiguous behind h.contiguous⟩

/-- **Open runs.**  The middles that are split off make the longest open run. -/
theorem isGreatest_opensRun {start : Slot} {rest middles behind : List Slot}
    (hstart : start.placement = .fragmentStart)
    (h : splitMiddles start.seq rest = (middles, behind)) :
    IsGreatest {r | OpensRun (start :: rest) r} (middles.length + 1) := by
  obtain ⟨rfl, hcont, hmiddles, hstop⟩ := splitMiddles_eq_iff.mp h
  refine ⟨⟨start, middles, behind, rfl, ⟨hstart, hmiddles, hcont⟩, rfl⟩, ?_⟩
  rintro r ⟨first, others, behind', hb, run, rfl⟩
  obtain ⟨rfl, hrest⟩ := List.cons.inj hb
  by_contra hlonger
  -- a longer run would go on with the packet that ended the walk
  obtain ⟨more, hmore⟩ : middles <+: others :=
    List.prefix_of_prefix_length_le (hrest ▸ List.prefix_append _ _) (List.prefix_append _ _)
      (by omega)
  cases more with
  | nil => simp [← hmore] at hlonger
  | cons s more =>
      subst hmore
      obtain rfl : behind = s :: (more ++ behind') := by simpa using hrest
      have hnext := (contiguous_append.mp run.contiguous).2.2 s rfl
      exact hstop s rfl ⟨hnext, run.middles s (by simp)⟩

/-- The packets at `i` and behind it are there, and `P` holds of the two. -/
def Joined (P : Slot → Slot → Prop) (b : ReorderBuffer) (i : Nat) : Prop :=
  ∃ prev s, b[i]? = some prev ∧ b[i + 1]? = some s ∧ P prev s

/-- A row is joined to the packet behind it by the number of its last packet. -/
theorem exists_joined_iff (first : Slot) (others behind : List Slot) :
    ∃ prev : Slot, prev.seq = lastSeq first others ∧ ∀ P : Slot → Slot → Prop,
      Joined P (first :: (others ++ behind)) others.length ↔ ∃ s ∈ behind.head?, P prev s := by
  obtain ⟨prev, hprev, hlast⟩ := Option.map_eq_some_iff.mp (getElem?_last first others behind)
  refine ⟨prev, hlast, fun P => ?_⟩
  simp only [Joined, hprev, getElem?_behind, Option.some.injEq, exists_and_left, exists_eq_left',
    Option.mem_def]

/-- What becomes of a longest open run of `r` packets is told by the packet behind it,
if there is one. -/
structure RunTaken (f : Format) (b : ReorderBuffer) (r : Nat) (taken : Outcome × ReorderBuffer) :
    Prop where
  emitted : Emits f b (r + 1) taken ↔ Joined (fun prev s =>
    SeqNum.follows prev.seq s.seq ∧ s.placement = .fragmentEnd) b (r - 1)
  incomplete : taken.1 = .incomplete none ↔ b[r]? = none
  gap : taken.1 = .gap r ↔ Joined (fun prev s => ¬ SeqNum.follows prev.seq s.seq) b (r - 1)
  broken : taken.1 = .broken r ↔ Joined (fun prev s => SeqNum.follows prev.seq s.seq ∧
    s.placement ≠ .fragmentMiddle ∧ s.placement ≠ .fragmentEnd) b (r - 1)

variable {f : Format}

/-- All but middles and ends can follow a complete unit. -/
theorem Placement.not_isContinuation_iff {p : Placement} :
    ¬ p.isContinuation ↔ p ≠ .fragmentMiddle ∧ p ≠ .fragmentEnd := by
  cases p <;> simp [isContinuation]

/-- An open run leaves together with the end that completes it. -/
theorem OpenRun.emits {start s : Slot} {middles : List Slot} {unit : Bytes}
    (run : OpenRun start middles) (stop : s.placement = .fragmentEnd)
    (next : SeqNum.follows (lastSeq start middles) s.seq)
    (rejoined : rejoin? f.codec start (middles ++ [s]) = some unit) (tail : List Slot) :
    Emits f (start :: (middles ++ s :: tail)) (middles.length + 2)
      (.emitted (f.unitAt s.packet.timestamp (Avcc.record unit)) (middles.length + 2) s.seq,
        tail) := by
  have hemits := (Forms.fragments run stop next rejoined).emits tail
  rw [List.append_assoc, List.singleton_append, lastSeq_append, lastSeq_nil, List.length_append,
    List.length_singleton] at hemits
  exact hemits

/-- **Runs.**  A start at the head comes to what the packet behind the longest open run
makes of that. -/
theorem takeUnit_start {start : Slot} {rest : List Slot}
    (hstart : start.placement = .fragmentStart)
    (classified : ∀ s ∈ start :: rest, s.Classified f.codec) :
    ∃ r, IsGreatest {r | OpensRun (start :: rest) r} r ∧
      RunTaken f (start :: rest) r (takeUnit f (start :: rest)) := by
  obtain ⟨middles, behind, rfl, run, houtcome⟩ := assembleRun_outcome (f := f) hstart rest
  have hassemble : assemble f (start :: (middles ++ behind)) =
      assembleRun f start (middles ++ behind) := by simp only [assemble, hstart]
  refine ⟨middles.length + 1, isGreatest_opensRun hstart (houtcome.split run), ?_⟩
  obtain ⟨prev, hlast, hjoined⟩ := exists_joined_iff start middles behind
  rw [← @Nat.add_sub_cancel middles.length 1] at hjoined
  have hbehind := getElem?_behind start middles behind
  simp only [takeUnit, hassemble]
  generalize assembleRun f start (middles ++ behind) = o at houtcome
  cases houtcome with
  | awaiting =>
      exact
        { emitted := by rw [hjoined]; simp [Emits]
          incomplete := by rw [hbehind]; simp
          gap := by rw [hjoined]; simp
          broken := by rw [hjoined]; simp }
  | gap hole =>
      rw [← hlast] at hole
      exact
        { emitted := by rw [hjoined]; simp [Emits, hole]
          incomplete := by rw [hbehind]; simp
          gap := by rw [hjoined]; simp [hole, Nat.add_comm]
          broken := by rw [hjoined]; simp [hole] }
  | broken next other =>
      rw [← hlast] at next
      obtain ⟨hmiddle, hend⟩ := Placement.not_isContinuation_iff.mp other
      exact
        { emitted := by rw [hjoined]; simp [Emits, hend]
          incomplete := by rw [hbehind]; simp
          gap := by rw [hjoined]; simp [next]
          broken := by rw [hjoined]; simp [next, hmiddle, hend, Nat.add_comm] }
  | @complete s tail unit next stop rejoined =>
      have hemits := run.emits stop next rejoined tail
      have hleft : (start :: (middles ++ s :: tail)).drop (middles.length + 2) = tail := by simp
      rw [← hlast] at next
      refine
        { emitted := ?_
          incomplete := by rw [hbehind]; simp
          gap := by rw [hjoined]; simp [next]
          broken := by rw [hjoined]; simp [stop] }
      rw [hjoined, Outcome.used, Nat.add_comm 2, hleft]
      exact ⟨fun _ => ⟨s, rfl, next, stop⟩, fun _ => hemits⟩
  | @short s tail next stop rejoined =>
      -- not of packets that were classified by their bodies
      have hrow : start :: (middles ++ [s]) <+: start :: (middles ++ s :: tail) := ⟨tail, by simp⟩
      obtain ⟨unit, hunit⟩ := run.exists_rejoin? stop fun t ht => classified t (hrow.subset ht)
      cases rejoined.symm.trans hunit

/-! ## Aggregations -/

namespace Aggregation

/-- A string is one or more complete records and nothing else; these are their NAL
units. -/
def Holds (b : Bytes) (units : List Bytes) : Prop :=
  units ≠ [] ∧ Short units ∧ b = encode units

/-- The first walk over an aggregation fails exactly if it does not consist of
complete records. -/
theorem widenedLength?_eq_none_iff {b : Bytes} :
    widenedLength? b = none ↔ ¬ ∃ units, Holds b units := by
  constructor
  · rintro hnone ⟨units, hne, hshort, hrecords⟩
    have hsome := widenedLength?_eq_some_iff.mpr ⟨units, hne, hshort, hrecords, rfl⟩
    cases hnone.symm.trans hsome
  · intro hnot
    refine Option.eq_none_iff_forall_ne_some.mpr fun n hsome => hnot ?_
    obtain ⟨units, hne, hshort, hrecords, -⟩ := widenedLength?_eq_some_iff.mp hsome
    exact ⟨units, hne, hshort, hrecords⟩

/-- Both walks along complete records go through: the check counts the octets of the
copy, and the copy, which checks nothing, does not leave the string. -/
theorem Holds.walks {b : Bytes} {units : List Bytes} (h : Holds b units) :
    widenedLength? b = some (Avcc.encode units).length ∧
      widenAt b 0 = some (Avcc.encode units) := by
  obtain ⟨hne, hshort, rfl⟩ := h
  refine ⟨widenedLength?_eq_some_iff.mpr ⟨units, hne, hshort, rfl, rfl⟩, ?_⟩
  have hcopy : widenAt (encode units) 0 = some (widen (encode units)) :=
    widenAt_eq (Nat.zero_le _) (widenedLengthFrom?_encode hshort 0)
  rw [hcopy, widen_encode hshort]

end Aggregation

open Aggregation (Holds)

/-- What an aggregation at the head comes to. -/
theorem takeUnit_aggregation {head : Slot}
    (placement : head.placement = .aggregationStart ∨ head.placement = .aggregationMember)
    (tail : List Slot) :
    (∀ units, Holds (head.body.drop f.codec.aggregationSkip) units → takeUnit f (head :: tail) =
      (.emitted (f.unitAt head.packet.timestamp (Avcc.encode units)) 1 head.seq, tail)) ∧
    ((¬ ∃ units, Holds (head.body.drop f.codec.aggregationSkip) units) →
      takeUnit f (head :: tail) = (.dropped (.malformedAggregation
        (head.body.drop f.codec.aggregationSkip).length) head.seq, tail)) := by
  have hassemble : assemble f (head :: tail) = assembleAggregation f head := by
    rcases placement with hp | hp <;> simp only [assemble, hp]
  simp only [takeUnit, hassemble, assembleAggregation]
  constructor
  · intro units h
    obtain ⟨hlength, -⟩ := h.walks
    obtain ⟨-, hshort, hrecords⟩ := h
    rw [hlength, hrecords, Aggregation.widen_encode hshort]
    rfl
  · intro h
    rw [Aggregation.widenedLength?_eq_none_iff.mpr h]
    rfl

/-- An aggregation leaves at once: as a unit, or dropped. -/
theorem takeUnit_emits_or_drops {head : Slot}
    (placement : head.placement = .aggregationStart ∨ head.placement = .aggregationMember)
    (tail : List Slot) : Emits f (head :: tail) 1 (takeUnit f (head :: tail)) ∨
      Drops (head :: tail) (takeUnit f (head :: tail)) := by
  obtain ⟨hwhole, hcut⟩ := takeUnit_aggregation (f := f) placement tail
  by_cases h : ∃ units, Holds (head.body.drop f.codec.aggregationSkip) units
  · obtain ⟨units, h⟩ := h
    rw [hwhole units h]
    exact .inl (@Forms.emits f head [] _ (.aggregation placement h.1 h.2.1 h.2.2) tail)
  · rw [hcut h]
    exact .inr ⟨_, _, rfl, removes_head head tail⟩

/-- **Aggregations.**  An aggregation is emitted exactly if what stands behind its
header is one or more complete records and nothing else, and then as their NAL
units in order: the check counts the octets of the unit, and the copy makes them
without leaving the body.  Any other aggregation is dropped.  Either way exactly the
packet at the head leaves. -/
theorem takeUnit_aggregation_iff {head : Slot}
    (placement : head.placement = .aggregationStart ∨ head.placement = .aggregationMember)
    (tail : List Slot) :
    let records := head.body.drop f.codec.aggregationSkip
    (∀ units,
      (∃ unit, takeUnit f (head :: tail) = (.emitted unit 1 head.seq, tail) ∧
        unit.nalUnits = units ∧
        Aggregation.widenedLength? records = some unit.payload.length ∧
        Aggregation.widenAt records 0 = some unit.payload) ↔ Holds records units) ∧
    (takeUnit f (head :: tail) =
        (.dropped (.malformedAggregation records.length) head.seq, tail) ↔
      ¬ ∃ units, Holds records units) := by
  intro records
  obtain ⟨hwhole, hcut⟩ := takeUnit_aggregation (f := f) placement tail
  have hnals {units : List Bytes} (h : Holds records units) :
      (f.unitAt head.packet.timestamp (Avcc.encode units)).nalUnits = units :=
    Avcc.records_encode fun unit hunit => Nat.lt_trans (h.2.1 unit hunit) (by decide)
  refine ⟨fun units => ⟨?_, ?_⟩, ?_, hcut⟩
  · rintro ⟨unit, htaken, rfl, -⟩
    by_cases h : ∃ units, Holds records units
    · obtain ⟨units, h⟩ := h
      cases (hwhole units h).symm.trans htaken
      rw [hnals h]
      exact h
    · cases (hcut h).symm.trans htaken
  · intro h
    exact ⟨_, hwhole units h, hnals h, h.walks⟩
  · rintro hdropped ⟨units, h⟩
    cases (hwhole units h).symm.trans hdropped

/-- An aggregation of an empty NAL unit and another one, in front of a packet that
stays. -/
theorem takeUnit_aggregation_iff_of_empty_unit :
    ∃ f head next, f = Format.ofClockRate .h265 90000 ∧
      head = Slot.ofPacket .h265 (.simple 96 true 65535 9000 1
        [0x60, 0x01, 0x00, 0x00, 0x00, 0x02, 0x40, 0x01]) ∧
      next = Slot.ofPacket .h265 (.simple 96 true 0 9000 1 [0x26, 0x01]) ∧
      head.placement = .aggregationStart ∧
      ∃ unit, takeUnit f [head, next] = (.emitted unit 1 65535, [next]) ∧
        unit.nalUnits = [[], [0x40, 0x01]] ∧
        Aggregation.widenedLength? [0x00, 0x00, 0x00, 0x02, 0x40, 0x01] =
          some unit.payload.length ∧
        Aggregation.widenAt [0x00, 0x00, 0x00, 0x02, 0x40, 0x01] 0 = some unit.payload :=
  ⟨_, _, _, rfl, rfl, rfl, by decide,
    ((takeUnit_aggregation_iff (.inl (by decide)) _).1 [[], [0x40, 0x01]]).mpr
      ⟨by simp, by simp [Aggregation.Short], by decide⟩⟩

/-! ## All heads -/

/-- What leaves is what the outcome says. -/
theorem takeUnit_removes (head : Slot) (tail : List Slot) :
    (∀ last ∈ (takeUnit f (head :: tail)).1.last?,
      ∃ k, Removes (head :: tail) (takeUnit f (head :: tail)).2 k last) ∧
    ((takeUnit f (head :: tail)).1.last? = none →
      (takeUnit f (head :: tail)).2 = head :: tail) := by
  have hassembled := assemble_assembled (f := f) head tail
  simp only [takeUnit]
  generalize assemble f (head :: tail) = o at hassembled
  cases hassembled with
  | @emitted others behind unit forms =>
      have hleft : (head :: (others ++ behind)).drop (others.length + 1) = behind := by simp
      simp only [Outcome.last?, Outcome.used, hleft]
      refine ⟨?_, by simp⟩
      rintro last ⟨⟩
      exact ⟨_, removes_of_contiguous behind forms.contiguous⟩
  | dropped =>
      simp only [Outcome.last?, Outcome.used]
      refine ⟨?_, by simp⟩
      rintro last ⟨⟩
      exact ⟨1, removes_head head tail⟩
  | orphan | awaiting | gap | broken => simp [Outcome.last?, Outcome.used]

/-- What is to come of a buffer, by the placement of the packet at its head. -/
def HeadTaken (f : Format) (b : ReorderBuffer) (taken : Outcome × ReorderBuffer) : Prop :=
  match b with
  | [] => taken.1 = .incomplete none
  | head :: _ =>
    match head.placement with
    | .single => Emits f b 1 taken
    | .aggregationStart | .aggregationMember => Emits f b 1 taken ∨ Drops b taken
    | .fragmentStart => ∃ r, IsGreatest {r | OpensRun b r} r ∧ RunTaken f b r taken
    | .fragmentMiddle | .fragmentEnd => taken.1 = .incomplete (some head)
    | .unknown => Drops b taken

/-- **An outcome says exactly what is taken off.**  When a unit is emitted or a packet
dropped, a contiguous row of one or more packets leaves the head, and its last
number is named; on the other outcomes nothing leaves.  Which outcome it is depends
on the placement of the head, and of a start on the longest open run and the packet
behind it. -/
theorem takeUnit_exact {b : ReorderBuffer} (classified : ∀ s ∈ b, s.Classified f.codec) :
    (∀ last ∈ (takeUnit f b).1.last?, ∃ k, Removes b (takeUnit f b).2 k last) ∧
      ((takeUnit f b).1.last? = none → (takeUnit f b).2 = b) ∧
      HeadTaken f b (takeUnit f b) := by
  cases b with
  | nil => exact ⟨by simp [takeUnit, assemble, Outcome.last?], fun _ => rfl, rfl⟩
  | cons head tail =>
      obtain ⟨hleaves, hstays⟩ := takeUnit_removes (f := f) head tail
      refine ⟨hleaves, hstays, ?_⟩
      cases hp : head.placement with
      | single =>
          simp only [HeadTaken, takeUnit, assemble, hp]
          exact @Forms.emits f head [] _ (.single hp) tail
      | aggregationStart =>
          simp only [HeadTaken, hp]
          exact takeUnit_emits_or_drops (.inl hp) tail
      | aggregationMember =>
          simp only [HeadTaken, hp]
          exact takeUnit_emits_or_drops (.inr hp) tail
      | fragmentStart =>
          simp only [HeadTaken, hp]
          exact takeUnit_start hp classified
      | fragmentMiddle | fragmentEnd => simp only [HeadTaken, takeUnit, assemble, hp]
      | unknown =>
          simp only [HeadTaken, takeUnit, assemble, hp]
          exact ⟨_, _, rfl, removes_head head tail⟩

/-- A run around the end of the numbers that lacks the packet before its end. -/
theorem takeUnit_exact_of_gap :
    ∃ f b, f = Format.ofClockRate .h264 90000 ∧
      b = [.ofPacket .h264 (.simple 96 false 65535 9000 1 [0x7C, 0x85, 0xA0]),
        .ofPacket .h264 (.simple 96 false 0 9000 1 [0x7C, 0x05, 0xA1]),
        .ofPacket .h264 (.simple 96 true 2 9000 1 [0x7C, 0x45, 0xA3])] ∧
      (∀ s ∈ b, s.Classified f.codec) ∧ (takeUnit f b).1 = .gap 2 ∧ (takeUnit f b).2 = b ∧
      ∃ r, IsGreatest {r | OpensRun b r} r ∧ RunTaken f b r (takeUnit f b) := by
  refine ⟨_, _, rfl, rfl, ?_, by decide, ?_⟩
  · simp [Slot.classified_ofPacket, Format.ofClockRate]
  · obtain ⟨-, hstays, hhead⟩ := takeUnit_exact (f := Format.ofClockRate .h264 90000)
      (b := [.ofPacket .h264 (.simple 96 false 65535 9000 1 [0x7C, 0x85, 0xA0]),
        .ofPacket .h264 (.simple 96 false 0 9000 1 [0x7C, 0x05, 0xA1]),
        .ofPacket .h264 (.simple 96 true 2 9000 1 [0x7C, 0x45, 0xA3])])
      (by simp [Slot.classified_ofPacket, Format.ofClockRate])
    exact ⟨hstays (by decide), hhead⟩

end RtpReassembly
