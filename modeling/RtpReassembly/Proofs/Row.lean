import RtpReassembly.Assembly
import RtpReassembly.Proofs.Circle
import RtpReassembly.Proofs.Records

/-!
# Rows of packets

Packets leave the buffer in rows from its head.  This file says which rows
those are, apart from when they leave.

* `OpenRun` is a run of fragments whose end has not been seen;
  `splitMiddles_eq_iff` characterises the longest one at the head;
* `RunOutcome` lists what an open run amounts to;
* `Forms` relates a row to the unit that is made of it; `Forms.assemble_eq` says
  that such a row makes its unit, and `assemble_assembled` that units are made of
  such rows only.
-/

namespace RtpReassembly

@[simp] theorem lastSeq_nil (first : Slot) : lastSeq first [] = first.seq := rfl

@[simp] theorem lastSeq_cons (first s : Slot) (rest : List Slot) :
    lastSeq first (s :: rest) = lastSeq s rest := by
  cases rest <;> simp [lastSeq, List.getLast?_cons]

/-- The last number of a row is that of its last part. -/
theorem lastSeq_append (first s : Slot) (front back : List Slot) :
    lastSeq first (front ++ s :: back) = lastSeq s back := by
  induction front generalizing first with
  | nil => simp
  | cons t front ih => simpa using ih t

/-- The last number of a row is the last of its numbers. -/
theorem getLast?_seqs (first : Slot) (rest : List Slot) :
    ((first :: rest).map Slot.seq).getLast? = some (lastSeq first rest) := by
  induction rest generalizing first with
  | nil => rfl
  | cons s rest ih => simpa using ih s

/-- The last number of a row is one of its numbers. -/
theorem lastSeq_mem (first : Slot) (rest : List Slot) :
    lastSeq first rest ∈ (first :: rest).map Slot.seq := by
  induction rest generalizing first with
  | nil => simp
  | cons s rest ih =>
      rw [lastSeq_cons]
      exact List.mem_cons_of_mem _ (ih s)

/-- The placement of a slot is that of its packet. -/
def Slot.Classified (codec : Codec) (s : Slot) : Prop :=
  s.placement = Placement.ofBody codec s.body

theorem Slot.classified_ofPacket (codec : Codec) (q : Rtp.Packet) :
    (Slot.ofPacket codec q).Classified codec := rfl

/-- Slots whose packets are numbered one after the other. -/
def Contiguous (row : List Slot) : Prop :=
  SeqNum.Consecutive (row.map Slot.seq)

theorem contiguous_cons_cons {first s : Slot} {rest : List Slot} :
    Contiguous (first :: s :: rest) ↔
      SeqNum.follows first.seq s.seq ∧ Contiguous (s :: rest) :=
  SeqNum.consecutive_cons_cons

theorem contiguous_singleton (s : Slot) : Contiguous [s] :=
  List.IsChain.singleton _

/-- A row goes on with another exactly if the second follows on its last
number. -/
theorem contiguous_append {first : Slot} {row back : List Slot} :
    Contiguous (first :: row ++ back) ↔ Contiguous (first :: row) ∧ Contiguous back ∧
      ∀ s ∈ back.head?, SeqNum.follows (lastSeq first row) s.seq := by
  unfold Contiguous
  rw [List.map_append, SeqNum.consecutive_append, getLast?_seqs]
  cases back <;> simp

/-- Whether a packet has a piece of a NAL unit. -/
def Placement.isFragment : Placement → Bool
  | .fragmentStart | .fragmentMiddle | .fragmentEnd => true
  | _ => false

/-- A packet that is placed as a fragment has the prefix of one. -/
theorem Placement.prefixLength_le {codec : Codec} {body : Bytes}
    (h : (Placement.ofBody codec body).isFragment) :
    codec.fragmentPrefixLength ≤ body.length := by
  cases codec with
  | h264 =>
      match body with
      | [] | [_] => grind [ofBody, ofH264, isFragment]
      | _ :: _ :: rest => simp [Codec.fragmentPrefixLength, Codec.nalHeaderLength]
  | h265 =>
      match body with
      | [] | [_] | [_, _] => grind [ofBody, ofH265, isFragment]
      | _ :: _ :: _ :: rest => simp [Codec.fragmentPrefixLength, Codec.nalHeaderLength]

/-- A body with the octets in front of a fragment's data has all that the rebuilt
header is made of. -/
theorem Codec.isSome_rebuiltHeaderOctets? {codec : Codec} {body : Bytes}
    (h : codec.fragmentPrefixLength ≤ body.length) :
    (codec.rebuiltHeaderOctets? body).isSome := by
  cases codec with
  | h264 =>
      match body with
      | [] | [_] => simp [fragmentPrefixLength, nalHeaderLength] at h
      | _ :: _ :: rest => rfl
  | h265 =>
      match body with
      | [] | [_] | [_, _] => simp [fragmentPrefixLength, nalHeaderLength] at h
      | _ :: _ :: _ :: rest => rfl

/-- The data of fragments is what stands behind their prefixes. -/
theorem fragmentsData?_eq_some_iff {codec : Codec} {row : List Slot} {data : Bytes} :
    fragmentsData? codec row = some data ↔
      (∀ s ∈ row, codec.fragmentPrefixLength ≤ s.body.length) ∧
        data = row.flatMap (fun s => s.body.drop codec.fragmentPrefixLength) := by
  induction row generalizing data with
  | nil => simp [fragmentsData?, eq_comm]
  | cons s rest ih =>
      unfold fragmentsData? Codec.fragmentData?
      by_cases hlen : codec.fragmentPrefixLength ≤ s.body.length
      · cases hrest : fragmentsData? codec rest with
        | none =>
            simp only [hlen, if_true, reduceCtorEq, false_iff, List.forall_mem_cons]
            rintro ⟨⟨-, hall⟩, -⟩
            have := ih.mpr ⟨hall, rfl⟩
            simp [hrest] at this
        | some more =>
            obtain ⟨hall, rfl⟩ := ih.mp hrest
            simp only [hlen, if_true, Option.some.injEq, List.forall_mem_cons, true_and,
              List.flatMap_cons]
            exact ⟨fun h => ⟨hall, h.symm⟩, fun h => h.2.symm⟩
      · simp [hlen]

/-- The NAL unit of a complete run. -/
theorem rejoin?_eq_some {codec : Codec} {start : Slot} {rest : List Slot} {unit : Bytes}
    (h : rejoin? codec start rest = some unit) :
    ∃ header, codec.rebuiltHeaderOctets? start.body = some header ∧
      (∀ s ∈ start :: rest, codec.fragmentPrefixLength ≤ s.body.length) ∧
      unit = header ++
        (start :: rest).flatMap (fun s => s.body.drop codec.fragmentPrefixLength) := by
  unfold rejoin? at h
  split at h
  · rename_i header data hheader hdata
    obtain ⟨hlen, rfl⟩ := fragmentsData?_eq_some_iff.mp hdata
    exact ⟨header, hheader, hlen, (Option.some.inj h).symm⟩
  · simp at h

/-- A run of classified fragments can always be rejoined. -/
theorem exists_rejoin? {codec : Codec} {start : Slot} {rest : List Slot}
    (h : ∀ s ∈ start :: rest, s.Classified codec ∧ s.placement.isFragment) :
    ∃ unit, rejoin? codec start rest = some unit := by
  have hlen : ∀ s ∈ start :: rest, codec.fragmentPrefixLength ≤ s.body.length := by
    intro s hs
    obtain ⟨hclass, hfrag⟩ := h s hs
    exact Placement.prefixLength_le (hclass ▸ hfrag)
  obtain ⟨header, hheader⟩ := Option.isSome_iff_exists.mp
    (Codec.isSome_rebuiltHeaderOctets? (hlen start List.mem_cons_self))
  have hdata := fragmentsData?_eq_some_iff.mpr ⟨hlen, rfl⟩
  refine ⟨header ++ (start :: rest).flatMap (fun s => s.body.drop codec.fragmentPrefixLength), ?_⟩
  simp only [rejoin?, hheader, hdata]

/-- A start of a fragmented unit and the middles that go on with it. -/
structure OpenRun (first : Slot) (others : List Slot) : Prop where
  start : first.placement = .fragmentStart
  middles : ∀ s ∈ others, s.placement = .fragmentMiddle
  contiguous : Contiguous (first :: others)

/-- An open run begins with a start. -/
theorem OpenRun.not_continuation {first : Slot} {others : List Slot} (run : OpenRun first others) :
    ¬ first.placement.isContinuation := by
  simp [run.start, Placement.isContinuation]

/-- All packets of an open run but the first continue it. -/
theorem OpenRun.continuing {first : Slot} {others : List Slot} (run : OpenRun first others) :
    ∀ s ∈ others, s.placement.isContinuation := by
  intro s hs
  simp [run.middles s hs, Placement.isContinuation]

/-- A run that has its end can be rejoined, if its packets are classified. -/
theorem OpenRun.exists_rejoin? {codec : Codec} {start stop : Slot} {middles : List Slot}
    (run : OpenRun start middles) (last : stop.placement = .fragmentEnd)
    (classified : ∀ s ∈ start :: (middles ++ [stop]), s.Classified codec) :
    ∃ unit, rejoin? codec start (middles ++ [stop]) = some unit := by
  apply RtpReassembly.exists_rejoin?
  intro s hs
  refine ⟨classified s hs, ?_⟩
  rcases List.mem_cons.mp hs with rfl | hs
  · simp [run.start, Placement.isFragment]
  · rcases List.mem_append.mp hs with hs | hs
    · simp [run.middles s hs, Placement.isFragment]
    · simp [List.mem_singleton.mp hs, last, Placement.isFragment]

/-- The middles behind `first` are the longest contiguous row of them. -/
theorem splitMiddles_eq_iff {first : Slot} {rest middles behind : List Slot} :
    splitMiddles first.seq rest = (middles, behind) ↔
      rest = middles ++ behind ∧ Contiguous (first :: middles) ∧
      (∀ s ∈ middles, s.placement = .fragmentMiddle) ∧
      ∀ s ∈ behind.head?,
        ¬ (SeqNum.follows (lastSeq first middles) s.seq ∧ s.placement = .fragmentMiddle) := by
  -- each middle that goes on with the run takes the place of `first`
  induction rest generalizing first middles with
  | nil =>
      simp only [splitMiddles, Prod.mk.injEq, List.nil_eq, List.append_eq_nil_iff]
      constructor
      · rintro ⟨rfl, rfl⟩
        simp [contiguous_singleton]
      · rintro ⟨⟨rfl, rfl⟩, -⟩
        exact ⟨rfl, rfl⟩
  | cons s rest ih =>
      by_cases hgo : SeqNum.follows first.seq s.seq ∧ s.placement = .fragmentMiddle
      · simp only [splitMiddles, if_pos hgo, Prod.mk.injEq]
        constructor
        · rintro ⟨rfl, rfl⟩
          obtain ⟨happ, hcont, hmid, hstop⟩ := (@ih s _).mp rfl
          refine ⟨by rw [List.cons_append, ← happ], contiguous_cons_cons.mpr ⟨hgo.1, hcont⟩,
            ?_, by simpa using hstop⟩
          intro t ht
          rcases List.mem_cons.mp ht with rfl | ht
          · exact hgo.2
          · exact hmid t ht
        · rintro ⟨happ, hcont, hmid, hstop⟩
          cases middles with
          | nil =>
              rw [List.nil_append] at happ
              exact absurd hgo (hstop s (by simp [← happ]))
          | cons t middles =>
              obtain ⟨rfl, htail⟩ := List.cons.inj happ
              have hrest := (@ih s middles).mpr
                ⟨htail, (contiguous_cons_cons.mp hcont).2,
                  fun u hu => hmid u (List.mem_cons_of_mem _ hu), by simpa using hstop⟩
              simp [hrest]
      · simp only [splitMiddles, if_neg hgo, Prod.mk.injEq]
        constructor
        · rintro ⟨rfl, rfl⟩
          refine ⟨rfl, contiguous_singleton _, by simp, ?_⟩
          simpa using hgo
        · rintro ⟨happ, hcont, hmid, -⟩
          cases middles with
          | nil => exact ⟨rfl, happ⟩
          | cons t middles =>
              obtain ⟨rfl, -⟩ := List.cons.inj happ
              exact absurd ⟨(contiguous_cons_cons.mp hcont).1, hmid _ List.mem_cons_self⟩ hgo

/-- The unit that a row of slots makes: a packet as it is, the records of an
aggregation, or a run of fragments from its start to its end. -/
inductive Forms (f : Format) : List Slot → AccessUnit → Prop
  | single {s : Slot} (placement : s.placement = .single) :
      Forms f [s] (f.unitAt s.packet.timestamp (Avcc.record s.body))
  | aggregation {s : Slot} {units : List Bytes}
      (placement : s.placement = .aggregationStart ∨ s.placement = .aggregationMember)
      (nonempty : units ≠ []) (short : Aggregation.Short units)
      (records : s.body.drop f.codec.aggregationSkip = Aggregation.encode units) :
      Forms f [s] (f.unitAt s.packet.timestamp (Avcc.encode units))
  | fragments {start stop : Slot} {middles : List Slot} {unit : Bytes}
      (run : OpenRun start middles) (placement : stop.placement = .fragmentEnd)
      (next : SeqNum.follows (lastSeq start middles) stop.seq)
      (rejoined : rejoin? f.codec start (middles ++ [stop]) = some unit) :
      Forms f (start :: (middles ++ [stop]))
        (f.unitAt stop.packet.timestamp (Avcc.record unit))

/-- A unit is made of consecutive packets. -/
theorem Forms.contiguous {f : Format} {row : List Slot} {unit : AccessUnit}
    (h : Forms f row unit) : Contiguous row := by
  cases h with
  | single _ => exact contiguous_singleton _
  | aggregation _ _ _ _ => exact contiguous_singleton _
  | @fragments start stop middles _ run _ next _ =>
      exact contiguous_append.mpr ⟨run.contiguous, contiguous_singleton _, by simpa using next⟩

/-- A unit starts with a packet that continues nothing, and all others continue
it. -/
theorem Forms.exists_cons {f : Format} {row : List Slot} {unit : AccessUnit}
    (h : Forms f row unit) :
    ∃ first others, row = first :: others ∧ ¬ first.placement.isContinuation ∧
      ∀ s ∈ others, s.placement.isContinuation := by
  cases h with
  | single placement => exact ⟨_, [], rfl, by simp [placement, Placement.isContinuation], by simp⟩
  | aggregation placement _ _ _ =>
      refine ⟨_, [], rfl, ?_, by simp⟩
      rcases placement with placement | placement <;> simp [placement, Placement.isContinuation]
  | @fragments start stop middles unit run placement next rejoined =>
      refine ⟨start, middles ++ [stop], rfl, run.not_continuation, ?_⟩
      intro s hs
      rcases List.mem_append.mp hs with hs | hs
      · exact run.continuing s hs
      · simp [List.mem_singleton.mp hs, placement, Placement.isContinuation]

/-- A buffer whose first packets make a unit does not begin with a continuation. -/
theorem Forms.not_continuation {f : Format} {row : List Slot} {unit : AccessUnit}
    (h : Forms f row unit) {head : Slot} {tail : List Slot} (hfront : row <+: head :: tail) :
    ¬ head.placement.isContinuation := by
  obtain ⟨first, others, rfl, hfirst, -⟩ := h.exists_cons
  obtain ⟨rfl, -⟩ := List.cons_prefix_cons.mp hfront
  exact hfirst

/-- What an open run amounts to depends on what stands behind its middles. -/
inductive RunOutcome (f : Format) (start : Slot) (middles : List Slot) :
    List Slot → Outcome → Prop
  | awaiting : RunOutcome f start middles [] (.incomplete none)
  | gap {s : Slot} {tail : List Slot}
      (hole : ¬ SeqNum.follows (lastSeq start middles) s.seq) :
      RunOutcome f start middles (s :: tail) (.gap (1 + middles.length))
  | broken {s : Slot} {tail : List Slot}
      (next : SeqNum.follows (lastSeq start middles) s.seq)
      (other : ¬ s.placement.isContinuation) :
      RunOutcome f start middles (s :: tail) (.broken (1 + middles.length))
  | complete {s : Slot} {tail : List Slot} {unit : Bytes}
      (next : SeqNum.follows (lastSeq start middles) s.seq)
      (stop : s.placement = .fragmentEnd)
      (rejoined : rejoin? f.codec start (middles ++ [s]) = some unit) :
      RunOutcome f start middles (s :: tail)
        (.emitted (f.unitAt s.packet.timestamp (Avcc.record unit)) (2 + middles.length) s.seq)
  | short {s : Slot} {tail : List Slot}
      (next : SeqNum.follows (lastSeq start middles) s.seq)
      (stop : s.placement = .fragmentEnd)
      (rejoined : rejoin? f.codec start (middles ++ [s]) = none) :
      RunOutcome f start middles (s :: tail) (.dropped .shortFragment start.seq)

variable {f : Format}

/-- The middles of an open run are all that its outcome leaves of the middles
at the head. -/
theorem RunOutcome.split {start : Slot} {middles behind : List Slot} {o : Outcome}
    (h : RunOutcome f start middles behind o) (run : OpenRun start middles) :
    splitMiddles start.seq (middles ++ behind) = (middles, behind) := by
  refine splitMiddles_eq_iff.mpr ⟨rfl, run.contiguous, run.middles, ?_⟩
  cases h with
  | awaiting => simp
  | gap hole => simp [hole]
  | broken next other =>
      simp only [List.head?_cons, Option.mem_some, forall_eq', not_and]
      intro _ hmid
      simp [hmid, Placement.isContinuation] at other
  | complete next stop _ => simp [stop]
  | short next stop _ => simp [stop]

/-- The outcome of an open run is what assembling it gives. -/
theorem RunOutcome.assembleRun_eq {start : Slot} {middles behind : List Slot} {o : Outcome}
    (h : RunOutcome f start middles behind o) (run : OpenRun start middles) :
    assembleRun f start (middles ++ behind) = o := by
  unfold assembleRun
  rw [h.split run]
  cases h with
  | awaiting => rfl
  | gap hole => simp [hole]
  | @broken s _ next other =>
      have hend : s.placement ≠ .fragmentEnd := by
        intro hend
        simp [hend, Placement.isContinuation] at other
      simp [next, hend]
  | complete next stop rejoined => simp [next, stop, rejoined]
  | short next stop rejoined => simp [next, stop, rejoined]

/-- Of a buffer that begins with an open run, the outcome is that of the run. -/
theorem RunOutcome.assemble_eq {start : Slot} {middles behind : List Slot} {o : Outcome}
    (h : RunOutcome f start middles behind o) (run : OpenRun start middles) :
    assemble f (start :: (middles ++ behind)) = o := by
  simp only [assemble, run.start]
  exact h.assembleRun_eq run

/-- Assembling a run gives the outcome of the longest open run. -/
theorem assembleRun_outcome {start : Slot} (hstart : start.placement = .fragmentStart)
    (rest : List Slot) :
    ∃ middles behind, rest = middles ++ behind ∧ OpenRun start middles ∧
      RunOutcome f start middles behind (assembleRun f start rest) := by
  obtain ⟨middles, behind, hsplit⟩ : ∃ middles behind,
      splitMiddles start.seq rest = (middles, behind) := ⟨_, _, rfl⟩
  obtain ⟨rfl, hcont, hmid, hstop⟩ := splitMiddles_eq_iff.mp hsplit
  have run : OpenRun start middles := ⟨hstart, hmid, hcont⟩
  have houtcome : ∃ o, RunOutcome f start middles behind o := by
    cases behind with
    | nil => exact ⟨_, .awaiting⟩
    | cons s tail =>
        by_cases hnext : SeqNum.follows (lastSeq start middles) s.seq
        · by_cases hother : s.placement.isContinuation
          · have hend : s.placement = .fragmentEnd := by
              have hnot : s.placement ≠ .fragmentMiddle := fun h => hstop s rfl ⟨hnext, h⟩
              cases hp : s.placement <;> simp_all [Placement.isContinuation]
            cases hjoin : rejoin? f.codec start (middles ++ [s]) with
            | none => exact ⟨_, .short hnext hend hjoin⟩
            | some unit => exact ⟨_, .complete hnext hend hjoin⟩
          · exact ⟨_, .broken hnext hother⟩
        · exact ⟨_, .gap hnext⟩
  obtain ⟨o, ho⟩ := houtcome
  refine ⟨middles, behind, rfl, run, ?_⟩
  rw [ho.assembleRun_eq run]
  exact ho

/-- **A unit at the head is emitted**, whatever stands behind it. -/
theorem Forms.assemble_eq {row : List Slot} {unit : AccessUnit} (h : Forms f row unit)
    {b : ReorderBuffer} (hb : row <+: b) : ∃ last, assemble f b = .emitted unit row.length last := by
  obtain ⟨behind, rfl⟩ := hb
  cases h with
  | @single s placement => exact ⟨s.seq, by simp [assemble, placement]⟩
  | @aggregation s nals placement nonempty short records =>
      have hwidened : Aggregation.widenedLength? (Aggregation.encode nals) = some _ :=
        Aggregation.widenedLength?_eq_some_iff.mpr ⟨nals, nonempty, short, rfl, rfl⟩
      refine ⟨s.seq, ?_⟩
      rcases placement with placement | placement <;>
        simp [assemble, placement, assembleAggregation, records, hwidened,
          Aggregation.widen_encode short]
  | @fragments start stop middles unit run placement next rejoined =>
      have houtcome : RunOutcome f start middles (stop :: behind) _ :=
        .complete next placement rejoined
      refine ⟨stop.seq, ?_⟩
      rw [List.cons_append, List.append_assoc, List.singleton_append, houtcome.assemble_eq run]
      simp [Nat.add_comm 2]

/-- What the head of a buffer can amount to. -/
inductive Assembled (f : Format) (head : Slot) : List Slot → Outcome → Prop
  | emitted {others behind : List Slot} {unit : AccessUnit}
      (forms : Forms f (head :: others) unit) :
      Assembled f head (others ++ behind)
        (.emitted unit (others.length + 1) (lastSeq head others))
  | dropped {tail : List Slot} {cause : DropCause} :
      Assembled f head tail (.dropped cause head.seq)
  | orphan {tail : List Slot} (continuation : head.placement.isContinuation) :
      Assembled f head tail (.incomplete (some head))
  | awaiting {middles : List Slot} (run : OpenRun head middles) :
      Assembled f head middles (.incomplete none)
  | gap {s : Slot} {middles behind : List Slot} (run : OpenRun head middles)
      (hole : ¬ SeqNum.follows (lastSeq head middles) s.seq) :
      Assembled f head (middles ++ s :: behind) (.gap (1 + middles.length))
  | broken {s : Slot} {middles behind : List Slot} (run : OpenRun head middles)
      (next : SeqNum.follows (lastSeq head middles) s.seq)
      (other : ¬ s.placement.isContinuation) :
      Assembled f head (middles ++ s :: behind) (.broken (1 + middles.length))

/-- **Units are made of rows.**  A unit at the head is made of the packets that
leave with it; of all else that is left at the head the reason is known. -/
theorem assemble_assembled (head : Slot) (tail : List Slot) :
    Assembled f head tail (assemble f (head :: tail)) := by
  cases hp : head.placement with
  | single =>
      simp only [assemble, hp]
      exact @Assembled.emitted f head [] tail _ (.single hp)
  | aggregationStart | aggregationMember =>
      simp only [assemble, hp, assembleAggregation]
      split
      · rename_i n hn
        obtain ⟨units, hne, hshort, hrec, -⟩ := Aggregation.widenedLength?_eq_some_iff.mp hn
        rw [hrec, Aggregation.widen_encode hshort]
        exact @Assembled.emitted f head [] tail _ (.aggregation (by simp [hp]) hne hshort hrec)
      · exact .dropped
  | fragmentStart =>
      simp only [assemble, hp]
      obtain ⟨middles, behind, rfl, run, houtcome⟩ := assembleRun_outcome (f := f) hp tail
      generalize assembleRun f head (middles ++ behind) = o at houtcome
      cases houtcome with
      | awaiting => simpa using Assembled.awaiting run
      | gap hole => exact .gap run hole
      | broken next other => exact .broken run next other
      | @complete s behind unit next stop rejoined =>
          have h := @Assembled.emitted f head (middles ++ [s]) behind _
            (.fragments run stop next rejoined)
          simpa [lastSeq_append, Nat.add_comm 2] using h
      | short => exact .dropped
  | fragmentMiddle | fragmentEnd =>
      simp only [assemble, hp]
      exact .orphan (by simp [hp, Placement.isContinuation])
  | unknown =>
      simp only [assemble, hp]
      exact .dropped

end RtpReassembly
