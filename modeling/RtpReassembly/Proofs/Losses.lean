import RtpReassembly.Proofs.Counts
import RtpReassembly.Proofs.Order
import RtpReassembly.Proofs.Rest

/-!
# What a loss costs

When packets are lost, fragments without a start, open runs and the packets over
capacity have to go, and they stand next to units of which nothing is missing.
This file shows that they go alone: of a stream that comes in order, whatever is
missing in it, each unit that is there as a whole is emitted or still waits.

* `Whole`: packets that are a unit as a whole;
* `Forms.assemble_eq`: what stands behind a unit does not matter, so neither does
  what is fed later;
* `Move.spares`: a move takes the packets of a whole unit only to emit it;
* `Spared`, `Followed`: this along any moves, and along a stream in order;
* `Trace.units_survive` is the main statement.
-/

namespace RtpReassembly

/-- Packets that are a unit as a whole: one that is a NAL unit or an aggregation
of complete records, or a contiguous run of fragments from a start to an end. -/
inductive Whole (codec : Codec) : List Rtp.Packet → Prop
  | single {q : Rtp.Packet} (placement : Placement.ofBody codec q.body = .single) :
      Whole codec [q]
  | aggregation {q : Rtp.Packet} {nals : List Bytes}
      (placement : Placement.ofBody codec q.body = .aggregationStart) (nonempty : nals ≠ [])
      (short : Aggregation.Short nals)
      (records : q.body.drop codec.aggregationSkip = Aggregation.encode nals) :
      Whole codec [q]
  | run {start stop : Rtp.Packet} {middles : List Rtp.Packet}
      (first : Placement.ofBody codec start.body = .fragmentStart)
      (between : ∀ q ∈ middles, Placement.ofBody codec q.body = .fragmentMiddle)
      (last : Placement.ofBody codec stop.body = .fragmentEnd)
      (consecutive : SeqNum.Consecutive ((start :: (middles ++ [stop])).map Rtp.Packet.seq)) :
      Whole codec (start :: (middles ++ [stop]))

variable {f : Format}

/-- A whole unit can always be made of its packets. -/
theorem Whole.forms {packets : List Rtp.Packet} (h : Whole f.codec packets) :
    ∃ unit, Forms f (packets.map (Slot.ofPacket f.codec)) unit := by
  cases h with
  | single placement => exact ⟨_, .single placement⟩
  | aggregation placement nonempty short records =>
      exact ⟨_, .aggregation (Or.inl placement) nonempty short records⟩
  | @run start stop middles first between last consecutive =>
      have hmiddles : ∀ s ∈ middles.map (Slot.ofPacket f.codec),
          s.placement = .fragmentMiddle := by
        intro s hs
        obtain ⟨q, hq, rfl⟩ := List.mem_map.mp hs
        exact between q hq
      have hcontiguous : Contiguous (Slot.ofPacket f.codec start ::
          (middles.map (Slot.ofPacket f.codec) ++ [Slot.ofPacket f.codec stop])) := by
        unfold Contiguous
        simpa [Slot.seq, Slot.ofPacket, Function.comp_def] using consecutive
      obtain ⟨hopen, -, hnext⟩ := contiguous_append.mp (List.cons_append ▸ hcontiguous)
      have run : OpenRun (Slot.ofPacket f.codec start) (middles.map (Slot.ofPacket f.codec)) :=
        ⟨first, hmiddles, hopen⟩
      have hclassified : ∀ s ∈ Slot.ofPacket f.codec start ::
          (middles.map (Slot.ofPacket f.codec) ++ [Slot.ofPacket f.codec stop]),
          s.Classified f.codec := by
        intro s hs
        have hmem : s ∈ (start :: (middles ++ [stop])).map (Slot.ofPacket f.codec) := by
          simpa using hs
        obtain ⟨q, -, rfl⟩ := List.mem_map.mp hmem
        exact Slot.classified_ofPacket f.codec q
      obtain ⟨unit, hunit⟩ := run.exists_rejoin? last hclassified
      refine ⟨f.unitAt stop.timestamp (Avcc.record unit), ?_⟩
      rw [List.map_cons, List.map_append, List.map_singleton]
      exact .fragments run last (hnext (.ofPacket f.codec stop) rfl) hunit

/-- Classified packets are dropped one by one, and only if they are no fragments. -/
theorem not_fragment_of_dropped {head : Slot} {tail : List Slot} {cause : DropCause}
    {last : SeqNum} (classified : ∀ s ∈ head :: tail, s.Classified f.codec)
    (h : assemble f (head :: tail) = .dropped cause last) : ¬ head.placement.isFragment := by
  intro hfragment
  cases hp : head.placement <;> simp [hp, Placement.isFragment] at hfragment
  · simp only [assemble, hp] at h
    obtain ⟨middles, behind, rfl, run, houtcome⟩ := assembleRun_outcome (f := f) hp tail
    rw [h] at houtcome
    cases houtcome with
    | @short s behind next stop rejoined =>
        have hrow : head :: (middles ++ [s]) <+: head :: (middles ++ s :: behind) :=
          ⟨behind, by simp⟩
        obtain ⟨unit, hunit⟩ :=
          run.exists_rejoin? stop fun t ht => classified t (hrow.subset ht)
        simp [rejoined] at hunit
  · simp [assemble, hp] at h
  · simp [assemble, hp] at h

namespace Window

variable {p : Policy} {row before after later : List Slot} {unit : AccessUnit}

/-- A unit that starts among a first packet and those that continue it starts
with the first. -/
theorem prefix_of_continuing {head : Slot} {others rest : List Slot}
    (continuing : ∀ s ∈ others, s.placement.isContinuation)
    (forms : Forms f row unit) (heq : head :: (others ++ rest) = before ++ (row ++ after))
    (hlt : before.length < others.length + 1) :
    before = [] ∧ row <+: head :: (others ++ rest) := by
  cases before with
  | nil => exact ⟨rfl, after, heq.symm⟩
  | cons _ before =>
      obtain ⟨first, more, rfl, hfirst, -⟩ := forms.exists_cons
      have hget : others[before.length]? = some first := by
        have hboth := congrArg (·[before.length]?) (List.cons.inj heq).2
        simpa [List.getElem?_append_left (Nat.lt_of_succ_lt_succ hlt)] using hboth
      exact absurd (continuing first (List.mem_of_getElem? hget)) hfirst

/-- **One move.**  Let a unit start among the packets that leave, whether all of
it is there or more of it is still to come.  If it fits into the buffer, then the
move emits just this unit. -/
theorem Move.spares {w w' : Window} {e : Event} (h : Move p f w e w')
    (atRest : ∀ s, e = .evicted s → w.AtRest p) (room : p.tolerance ≤ p.capacity)
    (classified : ∀ s ∈ w.buffer, s.Classified f.codec) (forms : Forms f row unit)
    (fits : row.length ≤ p.capacity + 1) (heq : w.buffer ++ later = before ++ (row ++ after))
    (hlt : before.length < e.slots.length) :
    before = [] ∧ ∃ u first others, e = .emitted u first others ∧ first :: others = row := by
  cases h with
  | giveUp _ _ | wait _ _ => simp [Event.slots] at hlt
  | @emit consumed head others behind u next formed =>
      obtain ⟨_, _, hrow, -, hothers⟩ := formed.exists_cons
      obtain ⟨rfl, rfl⟩ := List.cons.inj hrow
      obtain ⟨rfl, hfront⟩ := prefix_of_continuing hothers forms (by simpa using heq) hlt
      have hlength : row.length = (head :: others).length := by
        obtain ⟨_, hunit⟩ := forms.assemble_eq hfront
        obtain ⟨_, hformed⟩ := formed.assemble_eq (List.prefix_append (head :: others) _)
        exact (Outcome.emitted.inj (hunit.symm.trans hformed)).2.1
      have hall : row <+: head :: others :=
        List.prefix_of_prefix_length_le hfront (List.prefix_append (head :: others) _)
          (Nat.le_of_eq hlength)
      exact ⟨rfl, u, head, others, rfl, (hall.eq_of_length hlength).symm⟩
  | @drop consumed head tail cause next useless =>
      have hwhole := not_fragment_of_dropped classified useless
      obtain ⟨rfl, hfront⟩ := @prefix_of_continuing _ _ _ _ _ head [] _ (by simp) forms
        (by simpa using heq) hlt
      obtain ⟨_, hunit⟩ := forms.assemble_eq hfront
      cases hp : head.placement <;> simp_all [assemble, assembleAggregation, Placement.isFragment]
  | @discard consumed head others behind next allowed given orphans contiguous =>
      obtain ⟨horphan, hothers⟩ := List.forall_mem_cons.mp orphans
      obtain ⟨rfl, hfront⟩ := prefix_of_continuing hothers forms (by simpa using heq) hlt
      exact absurd horphan (forms.not_continuation hfront)
  | @abandonGap consumed head s others behind next run hole lost =>
      obtain ⟨rfl, hfront⟩ := prefix_of_continuing run.continuing forms (by simpa using heq) hlt
      obtain ⟨_, hunit⟩ := forms.assemble_eq hfront
      simp [(RunOutcome.gap hole).assemble_eq run] at hunit
  | @abandonBroken consumed head s others behind next run follows other =>
      obtain ⟨rfl, hfront⟩ := prefix_of_continuing run.continuing forms (by simpa using heq) hlt
      obtain ⟨_, hunit⟩ := forms.assemble_eq hfront
      simp [(RunOutcome.broken follows other).assemble_eq run] at hunit
  | @evict consumed head tail full =>
      obtain hempty | ⟨a, hwaits⟩ := atRest head rfl
      · simp at hempty
      · cases hwaits with
        | hole _ short => omega
        | runStart _ orphan _ =>
            obtain ⟨rfl, hfront⟩ := @prefix_of_continuing _ _ _ _ _ head [] _ (by simp) forms
              (by simpa using heq) hlt
            exact absurd orphan (forms.not_continuation hfront)
        | @runEnd _ _ middles behind next run hole short =>
            obtain ⟨rfl, hfront⟩ := prefix_of_continuing run.continuing forms
              (by simpa using heq) (Nat.lt_of_lt_of_le hlt (by simp [Event.slots]))
            cases behind with
            | cons s behind =>
                obtain ⟨_, hunit⟩ := forms.assemble_eq hfront
                simp [(RunOutcome.gap (by simpa using hole)).assemble_eq run] at hunit
            | nil =>
                -- the run is all that waits, and too long for the unit to go on behind it
                have hall : row <+: head :: (middles ++ []) := by
                  apply List.prefix_of_prefix_length_le hfront
                  · exact ⟨later, by simp⟩
                  · simp only [List.append_nil, List.length_cons] at full ⊢
                    omega
                obtain ⟨_, hunit⟩ := forms.assemble_eq hall
                rw [RunOutcome.awaiting.assemble_eq run] at hunit
                simp at hunit

/-- Among events and what `rest` is left of a stream, each unit that fits into the
buffer and has begun to leave has left in an event of its own. -/
def Spared (p : Policy) (f : Format) (es : List Event) (rest : List Slot) : Prop :=
  ∀ before row after unit, es.flatMap Event.slots ++ rest = before ++ (row ++ after) →
    Forms f row unit → row.length ≤ p.capacity + 1 →
    before.length < (es.flatMap Event.slots).length →
    ∃ es₁ u first others es₂, es = es₁ ++ .emitted u first others :: es₂ ∧
      es₁.flatMap Event.slots = before ∧ first :: others = row

/-- Units are spared by events one after the other: the row of a unit starts
either among the first packets to leave or behind them. -/
theorem Spared.append {es es' : List Event} {rest : List Slot}
    (h : Spared p f es (es'.flatMap Event.slots ++ rest)) (h' : Spared p f es' rest) :
    Spared p f (es ++ es') rest := by
  intro before row after unit heq forms fits hlt
  rw [List.flatMap_append] at heq hlt
  rw [List.append_assoc] at heq
  -- the unit starts to leave in the first events, or after them
  by_cases hfirst : before.length < (es.flatMap Event.slots).length
  · obtain ⟨es₁, u, first, others, es₂, rfl, hbefore, hrow⟩ :=
      h before row after unit heq forms fits hfirst
    exact ⟨es₁, u, first, others, es₂ ++ es', by simp, hbefore, hrow⟩
  · obtain ⟨between, rfl⟩ : es.flatMap Event.slots <+: before :=
      List.prefix_of_prefix_length_le (List.prefix_append _ _)
        (heq ▸ List.prefix_append before _) (Nat.le_of_not_lt hfirst)
    rw [List.append_assoc] at heq
    obtain ⟨es₁, u, first, others, es₂, rfl, rfl, hrow⟩ :=
      h' between row after unit (List.append_cancel_left heq) forms fits (by
        simp only [List.length_append] at hlt
        omega)
    exact ⟨es ++ es₁, u, first, others, es₂, by simp, by simp, hrow⟩

/-- **Any moves** that evict packets from windows at rest only spare all units. -/
theorem ReluctantMoves.spared {w w' : Window} {es : List Event}
    (h : ReluctantMoves p f w es w') (room : p.tolerance ≤ p.capacity)
    (classified : ∀ s ∈ w.buffer, s.Classified f.codec) (later : List Slot) :
    Spared p f es (w'.buffer ++ later) := by
  induction h with
  | nil w => simp [Spared]
  | @cons w w' w'' e es move atRest rest ih =>
      have hbuffer := move.buffer_eq
      have hsingle : Spared p f [e] (es.flatMap Event.slots ++ (w''.buffer ++ later)) := by
        intro before row after unit heq forms fits hlt
        rw [← List.append_assoc _ _ later, ← rest.moves.buffer_eq] at heq
        obtain ⟨rfl, u, first, others, rfl, hrow⟩ := move.spares atRest room classified forms fits
          (by simpa [hbuffer] using heq) (by simpa using hlt)
        exact ⟨[], u, first, others, [], rfl, rfl, hrow⟩
      exact hsingle.append (ih fun s hs => classified s (by simp [hbuffer, hs]))

/-- A move that empties the window leaves off at the last packet that waited. -/
theorem Move.consumed_of_empty {w w' : Window} {e : Event} (h : Move p f w e w')
    (hempty : w'.buffer = []) : w'.consumed = w.buffer.seqs.getLast? := by
  cases h with
  | @emit consumed head others behind _ _ _ | @discard consumed head others behind _ _ _ _ _ =>
      obtain rfl : behind = [] := hempty
      rw [List.append_nil, ReorderBuffer.seqs, getLast?_seqs]
  | @drop consumed head tail _ _ _ | @evict consumed head tail _ =>
      obtain rfl : tail = [] := hempty
      rfl
  | _ => simp at hempty

/-- When all packets have left, the last that left is the last of them. -/
theorem Moves.consumed_of_empty {w w' : Window} {es : List Event} (h : Moves p f w es w')
    (hsome : w.buffer ≠ []) (hempty : w'.buffer = []) :
    w'.consumed = w.buffer.seqs.getLast? := by
  induction h with
  | nil w => exact absurd hempty hsome
  | @cons w w' w'' e es move rest ih =>
      by_cases hleft : w'.buffer = []
      · -- nothing moves in an empty window
        cases rest with
        | nil => exact move.consumed_of_empty hleft
        | cons move' _ => cases move' <;> simp at hleft
      · rw [ih hleft hempty, move.buffer_eq, ReorderBuffer.seqs, ReorderBuffer.seqs,
          List.map_append, List.getLast?_append_of_ne_nil _ (by simpa using hleft)]

/-- A packet goes on with a stream that led to the window `w`: it comes after all
that was fed before, and from less than half a circle in front of the last number
that left or, while nothing has left, of the head. -/
structure GoesOn (w : Window) (before : List Rtp.Packet) (packet : Rtp.Packet) : Prop where
  after : ∀ last ∈ before.getLast?, SeqNum.order packet.seq last.seq = .gt
  near : ∀ c ∈ w.consumed, SeqNum.ahead packet.seq c < SeqNum.half
  opening : w.consumed = none → ∀ head ∈ w.buffer.head?,
    SeqNum.ahead packet.seq head.seq < SeqNum.half

/-- Packets come in order, with any of them missing. -/
def Ascends (p : Policy) (f : Format) (fed : List Rtp.Packet) : Prop :=
  ∀ before packet after, fed = before ++ packet :: after →
    GoesOn (feedAll p f {} before).1 before packet

instance (w : Window) (before : List Rtp.Packet) (packet : Rtp.Packet) :
    Decidable (GoesOn w before packet) :=
  -- over options, not over all numbers of the circle
  decidable_of_iff
    (before.getLast?.all (fun last => SeqNum.order packet.seq last.seq == .gt) ∧
      w.consumed.all (fun c => SeqNum.ahead packet.seq c < SeqNum.half) ∧
      (w.consumed.isSome ∨
        w.buffer.head?.all (fun head => SeqNum.ahead packet.seq head.seq < SeqNum.half))) <| by
    simp only [Option.all_eq_true, beq_iff_eq, decide_eq_true_eq]
    constructor
    · rintro ⟨after, near, opening⟩
      refine ⟨after, near, ?_⟩
      intro hnone
      exact opening.resolve_left (by simp [hnone])
    · rintro ⟨after, near, opening⟩
      refine ⟨after, near, ?_⟩
      cases hc : w.consumed with
      | none => exact Or.inr (opening hc)
      | some c => exact Or.inl rfl

/-- That packets ascend can be checked position by position. -/
theorem ascends_iff {fed : List Rtp.Packet} :
    Ascends p f fed ↔ ∀ (i : Nat) (h : i < fed.length),
      GoesOn (feedAll p f {} (fed.take i)).1 (fed.take i) fed[i] := by
  constructor
  · intro h i hi
    apply h (fed.take i) fed[i] (fed.drop (i + 1))
    rw [← List.drop_eq_getElem_cons hi, List.take_append_drop]
  · rintro h before packet after rfl
    simpa using h before.length (by simp)

instance (fed : List Rtp.Packet) : Decidable (Ascends p f fed) :=
  decidable_of_iff' _ ascends_iff

/-- What comes of packets in order: none is refused, they leave and wait in their
order, and no unit among them is lost. -/
structure Followed (p : Policy) (f : Format) (fed : List Rtp.Packet) (w : Window)
    (es : List Event) : Prop where
  within : ∀ base, (∀ first ∈ fed.head?, first.seq = base) → w.Within (w.consumed.getD base)
  slots : es.flatMap Event.slots ++ w.buffer = fed.map (Slot.ofPacket f.codec)
  opening : w.consumed = none → es.flatMap Event.slots = []
  last : w.buffer = [] → w.consumed = (fed.map Rtp.Packet.seq).getLast?
  accepted : es.countP Event.isRefusal = 0
  spared : ∀ later, Spared p f es (w.buffer ++ later)

theorem followed_nil : Followed p f [] {} [] :=
  ⟨fun base _ => within_empty base, rfl, fun _ => rfl, fun _ => rfl, rfl, by simp [Spared]⟩

variable {fed : List Rtp.Packet} {w : Window} {es : List Event} {packet : Rtp.Packet}

/-- While nothing has left, the head is the first packet that was fed. -/
theorem Followed.head? (h : Followed p f fed w es) (hnone : w.consumed = none) :
    w.buffer.head? = fed.head?.map (Slot.ofPacket f.codec) := by
  have hslots := h.slots
  rw [h.opening hnone] at hslots
  rw [show w.buffer = _ from hslots, List.head?_map]

/-- What waits is classified by its body. -/
theorem Followed.classified (h : Followed p f fed w es) :
    ∀ s ∈ w.buffer, s.Classified f.codec := by
  intro s hs
  have hmem := List.mem_append_right (es.flatMap Event.slots) hs
  rw [h.slots] at hmem
  obtain ⟨q, -, rfl⟩ := List.mem_map.mp hmem
  exact Slot.classified_ofPacket f.codec q

/-- A packet that goes on with a stream comes after the last that waits. -/
theorem Followed.after_last (h : Followed p f fed w es) (goesOn : GoesOn w fed packet) :
    ∀ s ∈ w.buffer.getLast?, SeqNum.order packet.seq s.seq = .gt := by
  intro s hs
  have hlast := congrArg List.getLast? h.slots
  rw [List.getLast?_append, Option.mem_def.mp hs, List.getLast?_map] at hlast
  obtain ⟨q, hq, rfl⟩ := Option.map_eq_some_iff.mp hlast.symm
  exact goesOn.after q hq

/-- A packet that goes on with a stream is not too late. -/
theorem Followed.fresh (h : Followed p f fed w es) (goesOn : GoesOn w fed packet) :
    ∀ c ∈ w.consumed, SeqNum.order packet.seq c = .gt := by
  intro c hc
  cases hb : w.buffer.getLast? with
  | none =>
      rw [h.last (List.getLast?_eq_none_iff.mp hb), List.getLast?_map] at hc
      obtain ⟨q, hq, rfl⟩ := Option.map_eq_some_iff.mp hc
      exact goesOn.after q hq
  | some s =>
      obtain ⟨base, hbase⟩ := exists_first_seq fed
      have hwithin := h.within base hbase
      rw [Option.mem_def.mp hc, Option.getD_some] at hwithin
      have hnear := goesOn.near c hc
      have hgt := h.after_last goesOn s hb
      rw [SeqNum.order_of_ahead hnear (hwithin.sorted.2 s (List.mem_of_getLast? hb)),
        Nat.compare_eq_gt] at hgt
      exact SeqNum.order_eq_gt_iff.mpr ⟨by omega, hnear⟩

/-- A packet that goes on with a stream leaves the window on a half circle. -/
theorem Followed.within_feed (h : Followed p f fed w es) (goesOn : GoesOn w fed packet)
    {base : SeqNum} (hbase : ∀ first ∈ (fed ++ [packet]).head?, first.seq = base) :
    (feed p f w packet).1.Within ((feed p f w packet).1.consumed.getD base) := by
  have hbefore : ∀ first ∈ fed.head?, first.seq = base := by
    intro first hfirst
    exact hbase first (by simp [Option.mem_def.mp hfirst])
  have hord : Ordered (w.consumed.getD base) w (feed p f w packet).2 (feed p f w packet).1 := by
    apply (feed_feeding w packet).ordered (h.within base hbefore)
    intro fresh
    cases hc : w.consumed with
    | some c =>
        obtain ⟨hpos, hnear⟩ := SeqNum.order_eq_gt_iff.mp (fresh c hc)
        exact ⟨hnear, by simpa using hpos⟩
    | none =>
        refine ⟨?_, by simp⟩
        cases fed with
        | nil => simp [← hbase packet rfl, SeqNum.half]
        | cons first rest =>
            rw [Option.getD_none, ← hbefore first rfl]
            exact goesOn.opening hc (.ofPacket f.codec first) (h.head? hc)
  cases hc' : (feed p f w packet).1.consumed with
  | some c' => exact hord.within.rebase hc'
  | none =>
      have hc : w.consumed = none := by
        by_contra hsome
        obtain ⟨c, hc⟩ := Option.ne_none_iff_exists'.mp hsome
        obtain ⟨c', hc'', -⟩ := hord.reach c (by simp [hc])
        simp [hc'] at hc''
      simpa [hc] using hord.within

/-- **One packet** that goes on with a stream. -/
theorem Followed.step (h : Followed p f fed w es) (room : p.tolerance ≤ p.capacity)
    (goesOn : GoesOn w fed packet) :
    Followed p f (fed ++ [packet]) (feed p f w packet).1 (es ++ (feed p f w packet).2) := by
  have fresh := h.fresh goesOn
  have inserted := ReorderBuffer.insert?_of_after (s := Slot.ofPacket f.codec packet)
    (h.after_last goesOn)
  have hwithin : ∀ base, (∀ first ∈ (fed ++ [packet]).head?, first.seq = base) →
      (feed p f w packet).1.Within ((feed p f w packet).1.consumed.getD base) :=
    fun _ hbase => h.within_feed goesOn hbase
  obtain ⟨more, hmore, hmoves⟩ := feed_reluctant fresh inserted
  rw [hmore]
  generalize (feed p f w packet).1 = w' at hwithin hmoves ⊢
  have hbuffer : w.buffer ++ [Slot.ofPacket f.codec packet] =
      more.flatMap Event.slots ++ w'.buffer := hmoves.moves.buffer_eq
  have hslots : (es ++ .classified packet :: more).flatMap Event.slots ++ w'.buffer =
      (fed ++ [packet]).map (Slot.ofPacket f.codec) := by
    rw [List.map_append, ← h.slots, List.append_assoc, List.map_singleton, hbuffer]
    simp [Event.slots]
  have hopening : w'.consumed = none →
      (es ++ .classified packet :: more).flatMap Event.slots = [] := by
    intro hnone
    have hstay : more.flatMap Event.slots = [] := by
      by_contra hleft
      simpa [hnone] using hmoves.moves.isSome_of_slots hleft
    have hc : w.consumed = none := by
      by_contra hsome
      simpa [hnone] using hmoves.moves.isSome_consumed (Option.isSome_iff_ne_none.mpr hsome)
    simp [h.opening hc, hstay, Event.slots]
  have hspared : ∀ later, Spared p f (es ++ .classified packet :: more) (w'.buffer ++ later) := by
    intro later
    -- for what happened before, the packet was still to come
    have hold := h.spared (Slot.ofPacket f.codec packet :: later)
    have hrest : w.buffer ++ Slot.ofPacket f.codec packet :: later =
        (Event.classified packet :: more).flatMap Event.slots ++ (w'.buffer ++ later) := by
      rw [List.append_cons, hbuffer, List.append_assoc]
      rfl
    rw [hrest] at hold
    have hfirst : Spared p f [.classified packet]
        (more.flatMap Event.slots ++ (w'.buffer ++ later)) := by
      simp [Spared, Event.slots]
    have hclassified : ∀ s ∈ w.buffer ++ [Slot.ofPacket f.codec packet], s.Classified f.codec :=
      List.forall_mem_append.mpr ⟨h.classified, by simp [Slot.classified_ofPacket]⟩
    exact hold.append (hfirst.append (hmoves.spared room hclassified later))
  exact
    { within := hwithin
      slots := hslots
      opening := hopening
      last := by
        intro hempty
        rw [hmoves.moves.consumed_of_empty (by simp) hempty]
        simp [ReorderBuffer.seqs, Slot.seq, Slot.ofPacket]
      accepted := by
        rw [List.countP_append, h.accepted, List.countP_cons, hmoves.moves.countP_isRefusal]
        rfl
      spared := hspared }

/-- **Any packets** in order. -/
theorem Ascends.followed (h : Ascends p f fed) (room : p.tolerance ≤ p.capacity) :
    Followed p f fed (feedAll p f {} fed).1 (feedAll p f {} fed).2 := by
  induction fed using List.reverseRecOn with
  | nil => exact followed_nil
  | append_singleton fed packet ih =>
      have hbefore : Ascends p f fed := by
        intro before q after heq
        exact h before q (after ++ [packet]) (by simp [heq])
      rw [feedAll_concat]
      exact (ih hbefore).step room (h fed packet [] rfl)

end Window

namespace Reassembler

variable {codec : Codec} {clockRate : UInt32} {policy : Policy}
variable {r : Reassembler} {fed : List Rtp.Packet} {events : List Event}

/-- **A lost packet costs only the unit that it belonged to.**  Let packets be fed
in order, with any of them missing, and let the capacity be no less than the
tolerance.  Then none is refused; and each unit that is there as a whole, and of
no more packets than the capacity and one, has been emitted, with all that was fed
before it gone and all that was fed after it behind, or waits with all its packets
in the buffer. -/
theorem Trace.units_survive (t : Trace codec clockRate policy r fed events)
    (room : policy.tolerance ≤ policy.capacity)
    (ascends : Window.Ascends policy (Format.ofClockRate codec clockRate) fed) :
    (∀ e ∈ events, ¬ e.isRefusal) ∧
    ∀ before packets after, fed = before ++ (packets ++ after) → Whole codec packets →
      packets.length ≤ policy.capacity + 1 →
      (∃ es₁ unit first others es₂, events = es₁ ++ .emitted unit first others :: es₂ ∧
        es₁.flatMap Event.slots = before.map (Slot.ofPacket codec) ∧
        first :: others = packets.map (Slot.ofPacket codec) ∧
        es₂.flatMap Event.slots ++ r.window.buffer = after.map (Slot.ofPacket codec)) ∨
      (∃ waiting, events.flatMap Event.slots ++ waiting = before.map (Slot.ofPacket codec) ∧
        r.window.buffer =
          waiting ++ (packets.map (Slot.ofPacket codec) ++ after.map (Slot.ofPacket codec))) := by
  have h := ascends.followed room
  rw [t.feedAll_eq] at h
  refine ⟨by simpa using List.countP_eq_zero.mp h.accepted, ?_⟩
  intro before packets after heq whole fits
  have hslots : events.flatMap Event.slots ++ r.window.buffer = before.map (Slot.ofPacket codec) ++
      (packets.map (Slot.ofPacket codec) ++ after.map (Slot.ofPacket codec)) := by
    rw [← List.map_append, ← List.map_append, ← heq]
    exact h.slots
  obtain ⟨unit, forms⟩ : ∃ unit, Forms (Format.ofClockRate codec clockRate)
      (packets.map (Slot.ofPacket codec)) unit := whole.forms
  by_cases hbegun : before.length < (events.flatMap Event.slots).length
  · left
    obtain ⟨es₁, u, first, others, es₂, rfl, hbefore, hrow⟩ := h.spared [] _ _ _ unit
      (by simpa using hslots) forms (by simpa using fits) (by simpa using hbegun)
    refine ⟨es₁, u, first, others, es₂, rfl, hbefore, hrow, ?_⟩
    rw [List.flatMap_append, List.flatMap_cons, hbefore, ← hrow] at hslots
    simpa [Event.slots] using hslots
  · right
    obtain ⟨waiting, hwaiting⟩ : events.flatMap Event.slots <+: before.map (Slot.ofPacket codec) :=
      List.prefix_of_prefix_length_le (List.prefix_append _ _)
        ⟨_, hslots.symm⟩ (by simpa using hbegun)
    refine ⟨waiting, hwaiting, ?_⟩
    rw [← hwaiting, List.append_assoc] at hslots
    exact List.append_cancel_left hslots

/-- A middle is lost across the wrap of the numbers: the start before it and the
end behind it go, and nothing else does. -/
theorem units_survive_wrapped :
    ∃ fed r events,
      fed = [.simple 96 false 65534 9000 1 [0x7C, 0x85, 0xA0],
        .simple 96 true 0 9000 1 [0x7C, 0x45, 0xA2], .simple 96 true 1 9000 1 [0x41, 0xB0],
        .simple 96 false 2 9000 1 [0x7C, 0x85, 0xC0], .simple 96 true 3 9000 1 [0x7C, 0x45, 0xC1],
        .simple 96 true 5 9000 1 [0x41, 0xD0]] ∧
      Trace .h264 90000 ⟨3, 1, true⟩ r fed events ∧
      Window.Ascends ⟨3, 1, true⟩ (Format.ofClockRate .h264 90000) fed ∧
      r.window.buffer.seqs = [5] ∧
      ∃ es₁ unit first others es₂, events = es₁ ++ .emitted unit first others :: es₂ ∧
        (first :: others).map Slot.seq = [2, 3] := by
  obtain ⟨r, t⟩ := exists_trace_feedAll .h264 ⟨3, 1, true⟩ (by decide : (1000 : UInt32) ≤ 90000)
    [.simple 96 false 65534 9000 1 [0x7C, 0x85, 0xA0],
      .simple 96 true 0 9000 1 [0x7C, 0x45, 0xA2], .simple 96 true 1 9000 1 [0x41, 0xB0],
      .simple 96 false 2 9000 1 [0x7C, 0x85, 0xC0], .simple 96 true 3 9000 1 [0x7C, 0x45, 0xC1],
      .simple 96 true 5 9000 1 [0x41, 0xD0]]
  have hascends : Window.Ascends ⟨3, 1, true⟩ (Format.ofClockRate .h264 90000)
      [.simple 96 false 65534 9000 1 [0x7C, 0x85, 0xA0],
        .simple 96 true 0 9000 1 [0x7C, 0x45, 0xA2], .simple 96 true 1 9000 1 [0x41, 0xB0],
        .simple 96 false 2 9000 1 [0x7C, 0x85, 0xC0], .simple 96 true 3 9000 1 [0x7C, 0x45, 0xC1],
        .simple 96 true 5 9000 1 [0x41, 0xD0]] := by
    decide +kernel
  have hwindow : r.window = _ := (congrArg Prod.fst t.feedAll_eq).symm
  have hbuffer : r.window.buffer.seqs = [5] := by
    rw [hwindow]
    decide +kernel
  have hwhole : Whole .h264 [.simple 96 false 2 9000 1 [0x7C, 0x85, 0xC0],
      .simple 96 true 3 9000 1 [0x7C, 0x45, 0xC1]] :=
    @Whole.run .h264 _ _ [] (by decide) (by simp) (by decide) (by decide)
  refine ⟨_, r, _, rfl, t, hascends, hbuffer, ?_⟩
  obtain ⟨es₁, unit, first, others, es₂, hevents, -, hrow, -⟩ | ⟨waiting, -, hwaits⟩ :=
    (t.units_survive (by decide) hascends).2 [_, _, _] [_, _] [_] rfl hwhole (by decide)
  · exact ⟨es₁, unit, first, others, es₂, hevents, by rw [hrow]; rfl⟩
  · have hlength := congrArg List.length hbuffer
    simp only [ReorderBuffer.seqs, List.length_map, hwaits, List.length_append, List.length_cons,
      List.length_nil] at hlength
    omega

end Reassembler

end RtpReassembly
