import RtpReassembly.Proofs.Intake
import RtpReassembly.Proofs.Trace

/-!
# Renumbering a stream

Sequence numbers are only ever compared with each other.  So nothing depends on
where a stream starts to count, nor on where its numbers wrap: with all numbers
moved on by the same amount, everything happens as before, at the moved numbers.

A `Renumbering k` moves the number of each packet on by `k`, and may change
whatever else reassembly does not read.  It is carried over from packets to
slots, events and windows, and each function of the window commutes with it:

* `assemble_renumber`, `serve_renumber`, `turn_renumber`: one look at the head;
* `settle_renumber`, `trim_renumber`, `insert?_renumber`: the loops;
* `feed_renumber`: one packet;
* `reports_renumber` is the main statement, about what is seen after each call.
-/

namespace RtpReassembly

namespace SeqNum

variable (a b k : SeqNum)

/-- The way from one number to another does not depend on where counting starts:
two numbers that move on together stay as far apart, around the circle too. -/
@[simp] theorem ahead_add : ahead (a + k) (b + k) = ahead a b := by
  have ha := a.toNat_lt
  have hb := b.toNat_lt
  have hk := k.toNat_lt
  simp only [ahead_eq_mod, UInt16.toNat_add]
  omega

/-- Numbers that move on together keep their order. -/
@[simp] theorem order_add : order (a + k) (b + k) = order a b := by
  simp [order]

@[simp] theorem follows_add : follows (a + k) (b + k) = follows a b := by
  rw [Bool.eq_iff_iff, follows_iff, follows_iff, ahead_add]

@[simp] theorem missingBetween_add : missingBetween (a + k) (b + k) = missingBetween a b := by
  simp [missingBetween, offset]

theorem pred_add : a + k - 1 = a - 1 + k := by
  simp only [UInt16.sub_eq_add_neg, UInt16.add_assoc, UInt16.add_comm k]

end SeqNum

/-- Packets with numbers moved on by `k`, the same time, and the same body. -/
structure Renumbering (k : SeqNum) where
  packet : Rtp.Packet → Rtp.Packet
  seq_packet : ∀ q, (packet q).seq = q.seq + k
  timestamp_packet : ∀ q, (packet q).timestamp = q.timestamp
  body_packet : ∀ q, (packet q).body = q.body

namespace Renumbering

/-- Packets with another number in their header and on the wire. -/
def onWire (k : SeqNum) : Renumbering k where
  packet q :=
    let header := { q.header with seq := q.header.seq + k }
    { q with header, raw := header.encode ++ q.raw.drop q.header.encode.length }
  seq_packet _ := rfl
  timestamp_packet _ := rfl
  body_packet _ := rfl

/-- A packet as a sender makes it stays one. -/
theorem onWire_make (k : SeqNum) (header : Rtp.Header) (body : Bytes) :
    (onWire k).packet (.make header body) = .make { header with seq := header.seq + k } body := by
  have hlength : ∀ (h : Rtp.Header) (seq : SeqNum),
      ({ h with seq }.encode : Bytes).length = h.encode.length := fun _ _ => rfl
  simp [onWire, Rtp.Packet.make, hlength]

variable {k : SeqNum} (g : Renumbering k)

attribute [simp] seq_packet timestamp_packet body_packet

/-- A slot with its packet renumbered. -/
def slot (s : Slot) : Slot :=
  { packet := g.packet s.packet, placement := s.placement }

@[simp] theorem seq_slot (s : Slot) : (g.slot s).seq = s.seq + k := g.seq_packet s.packet

@[simp] theorem body_slot (s : Slot) : (g.slot s).body = s.body := g.body_packet s.packet

@[simp] theorem timestamp_slot (s : Slot) :
    (g.slot s).packet.timestamp = s.packet.timestamp := g.timestamp_packet s.packet

@[simp] theorem placement_slot (s : Slot) : (g.slot s).placement = s.placement := rfl

/-- A renumbered packet is classified as before, since that is read from its body.
-/
theorem ofPacket_packet (codec : Codec) (q : Rtp.Packet) :
    Slot.ofPacket codec (g.packet q) = g.slot (Slot.ofPacket codec q) := by
  simp [Slot.ofPacket, slot]

/-- An outcome with all numbers moved on. -/
def outcome : Outcome → Outcome
  | .emitted unit used last => .emitted unit used (last + k)
  | .dropped cause last => .dropped cause (last + k)
  | .incomplete orphan => .incomplete (orphan.map g.slot)
  | .gap run => .gap run
  | .broken run => .broken run

/-- An event with all numbers moved on. -/
def event : Event → Event
  | .stale seq consumed => .stale (seq + k) (consumed + k)
  | .classified q => .classified (g.packet q)
  | .duplicate seq => .duplicate (seq + k)
  | .gaveUp missing head => .gaveUp missing (head + k)
  | .emitted unit first others => .emitted unit (g.slot first) (others.map g.slot)
  | .dropped cause head => .dropped cause (g.slot head)
  | .orphanWaits head => .orphanWaits (g.slot head)
  | .orphansDiscarded first others => .orphansDiscarded (g.slot first) (others.map g.slot)
  | .runAbandoned fault first others next =>
    .runAbandoned fault (g.slot first) (others.map g.slot) (next.map (· + k))
  | .evicted head => .evicted (g.slot head)

/-- A window with all numbers moved on. -/
def window (w : Window) : Window :=
  { buffer := w.buffer.map g.slot, consumed := w.consumed.map (· + k) }

/-- A turn with all numbers moved on. -/
def turn : Turn → Turn
  | .settled w es => .settled (g.window w) (es.map g.event)
  | .moved w es => .moved (g.window w) (es.map g.event)

/-- The number of the last slot of a row moves on with the row. -/
@[simp] theorem lastSeq_renumber (first : Slot) (rest : List Slot) :
    lastSeq (g.slot first) (rest.map g.slot) = lastSeq first rest + k := by
  induction rest generalizing first with
  | nil => simp
  | cons s rest ih => simpa using ih s

@[simp] theorem head?_renumber (b : List Slot) :
    (b.map g.slot).head?.map Slot.seq = (b.head?.map Slot.seq).map (· + k) := by
  cases b <;> simp

/-! ## One look at the head -/

/-- The same middles go on with a run, as both numbers that are compared move. -/
theorem splitMiddles_renumber (prev : SeqNum) (b : List Slot) :
    splitMiddles (prev + k) (b.map g.slot) =
      ((splitMiddles prev b).1.map g.slot, (splitMiddles prev b).2.map g.slot) := by
  induction b generalizing prev with
  | nil => rfl
  | cons s rest ih =>
      simp only [List.map_cons, splitMiddles, seq_slot, SeqNum.follows_add, placement_slot, ih]
      split <;> rfl

/-- The pieces of a run carry the same octets. -/
@[simp] theorem fragmentsData?_renumber (codec : Codec) (b : List Slot) :
    fragmentsData? codec (b.map g.slot) = fragmentsData? codec b := by
  induction b with
  | nil => rfl
  | cons s rest ih => simp [fragmentsData?, ih]

/-- The same NAL unit is put together from the pieces. -/
theorem rejoin?_renumber (codec : Codec) (start : Slot) (rest : List Slot) :
    rejoin? codec (g.slot start) (rest.map g.slot) = rejoin? codec start rest := by
  have hdata := g.fragmentsData?_renumber codec (start :: rest)
  simp only [List.map_cons] at hdata
  simp [rejoin?, hdata]

variable (f : Format)

/-- A run that a start opens comes to the same: a unit, a fault, or waiting. -/
theorem assembleRun_renumber (start : Slot) (rest : List Slot) :
    assembleRun f (g.slot start) (rest.map g.slot) = g.outcome (assembleRun f start rest) := by
  unfold assembleRun
  rw [seq_slot, splitMiddles_renumber]
  generalize splitMiddles start.seq rest = row
  obtain ⟨middles, behind⟩ := row
  cases behind with
  | nil => rfl
  | cons s behind =>
      have hjoin := g.rejoin?_renumber f.codec start (middles ++ [s])
      simp only [List.map_append, List.map_cons, List.map_nil] at hjoin
      simp only [List.map_cons, lastSeq_renumber, seq_slot, SeqNum.follows_add, placement_slot,
        timestamp_slot, List.length_map, hjoin]
      split
      · rfl
      · split
        · rfl
        · split <;> rfl

/-- An aggregation comes to the same, for its records are in its body. -/
theorem assembleAggregation_renumber (head : Slot) :
    assembleAggregation f (g.slot head) = g.outcome (assembleAggregation f head) := by
  simp only [assembleAggregation, body_slot, timestamp_slot, seq_slot]
  split <;> rfl

/-- **One look at the head.** What the buffer amounts to does not depend on where
the stream starts to count. -/
theorem assemble_renumber (b : ReorderBuffer) :
    assemble f (b.map g.slot) = g.outcome (assemble f b) := by
  cases b with
  | nil => rfl
  | cons head rest =>
      simp only [List.map_cons, assemble, placement_slot, body_slot, timestamp_slot, seq_slot]
      cases head.placement with
      | aggregationStart | aggregationMember => exact g.assembleAggregation_renumber f head
      | fragmentStart => exact g.assembleRun_renumber f head rest
      | _ => rfl

/-- The same continuations follow a number directly. -/
theorem splitOrphans_renumber (prev : SeqNum) (b : List Slot) :
    Window.splitOrphans (prev + k) (b.map g.slot) =
      ((Window.splitOrphans prev b).1.map g.slot, (Window.splitOrphans prev b).2.map g.slot) := by
  induction b generalizing prev with
  | nil => rfl
  | cons s rest ih =>
      simp only [List.map_cons, Window.splitOrphans, seq_slot, SeqNum.follows_add,
        placement_slot, ih]
      split
      · rfl
      · split <;> rfl

/-- The same packets are discarded behind an orphan. -/
theorem orphansAfter_renumber (head : Slot) (tail : List Slot) :
    Window.orphansAfter (g.slot head) (tail.map g.slot) =
      ((Window.orphansAfter head tail).1.map g.slot,
        (Window.orphansAfter head tail).2.map g.slot) := by
  simp only [Window.orphansAfter, placement_slot, seq_slot, splitOrphans_renumber]
  split <;> rfl

theorem lostBefore_renumber (last : SeqNum) (next : Option SeqNum) :
    Window.lostBefore (last + k) (next.map (· + k)) = Window.lostBefore last next := by
  cases next <;> simp [Window.lostBefore]

/-- Giving up the hole behind a run leaves off at the moved number. -/
theorem consumedWithHole_renumber (last : SeqNum) (next : Option SeqNum) :
    Window.consumedWithHole (last + k) (next.map (· + k)) =
      Window.consumedWithHole last next + k := by
  cases next with
  | none => rfl
  | some s =>
      simp only [Option.map_some, Window.consumedWithHole, SeqNum.follows_add, SeqNum.pred_add]
      split <;> rfl

/-- A run is abandoned with the same packets and the same hole. -/
theorem abandonRun_renumber (fault : RunFault) (run : Nat) (head : Slot) (tail : List Slot) :
    Window.abandonRun fault run (g.slot head) (tail.map g.slot) =
      g.turn (Window.abandonRun fault run head tail) := by
  simp only [Window.abandonRun, turn, window, event, ← List.map_take, ← List.map_drop,
    lastSeq_renumber, head?_renumber, consumedWithHole_renumber, Option.map_some, List.map_cons,
    List.map_nil]

variable (p : Policy)

/-- A head that is the next packet is served alike. -/
theorem serve_renumber (consumed : Option SeqNum) (head : Slot) (tail : List Slot) :
    Window.serve p f (consumed.map (· + k)) (g.slot head) (tail.map g.slot) =
      g.turn (Window.serve p f consumed head tail) := by
  have hassemble := g.assemble_renumber f (head :: tail)
  rw [List.map_cons] at hassemble
  simp only [Window.serve, placement_slot, Option.isSome_map, List.length_map,
    orphansAfter_renumber, hassemble]
  split
  · simp [turn, window, event]
  · cases assemble f (head :: tail) with
    | incomplete orphan => cases orphan <;> rfl
    | gap run =>
        simp only [outcome]
        split
        · exact g.abandonRun_renumber _ run head tail
        · rfl
    | broken run => exact g.abandonRun_renumber _ run head tail
    | _ => simp [outcome, turn, window, event]

/-- A hole is given up for the moved numbers exactly when it was before. -/
theorem passHole?_renumber (consumed : Option SeqNum) (head : SeqNum) (waiting : Nat) :
    Window.passHole? p (consumed.map (· + k)) (head + k) waiting =
      (Window.passHole? p consumed head waiting).map
        fun (c, es) => (c.map (· + k), es.map g.event) := by
  cases consumed with
  | none => rfl
  | some c =>
      simp only [Option.map_some, Window.passHole?, SeqNum.follows_add, SeqNum.pred_add,
        SeqNum.missingBetween_add]
      split
      · rfl
      · split <;> rfl

/-- One turn of the loop commutes with renumbering: it settles or moves as before.
-/
theorem turn_renumber (w : Window) :
    Window.turn p f (g.window w) = g.turn (Window.turn p f w) := by
  obtain ⟨buffer, consumed⟩ := w
  cases buffer with
  | nil => rfl
  | cons head tail =>
      simp only [window, List.map_cons, Window.turn, seq_slot, List.length_map,
        passHole?_renumber g]
      cases Window.passHole? p consumed head.seq (tail.length + 1) with
      | none => rfl
      | some passed =>
          simp only [Option.map_some, serve_renumber]
          cases Window.serve p f passed.1 head tail <;> simp [turn]

/-! ## The loops -/

/-- The loop takes as many turns and ends in the renumbered window. -/
theorem settle_renumber (w : Window) :
    Window.settle p f (g.window w) =
      (g.window (Window.settle p f w).1, (Window.settle p f w).2.map g.event) := by
  fun_induction Window.settle p f w with
  | case1 w w' es h =>
      apply Window.settle_of_settled
      rw [turn_renumber, h, turn]
  | case2 w w' es h w'' more hrec ih =>
      have hturn : Window.turn p f (g.window w) = .moved (g.window w') (es.map g.event) := by
        rw [turn_renumber, h, turn]
      rw [Window.settle_of_moved hturn, ih, hrec, List.map_append]

/-- The same heads are evicted, and what settles behind each is the same. -/
theorem trim_renumber (w : Window) :
    Window.trim p f (g.window w) =
      (g.window (Window.trim p f w).1, (Window.trim p f w).2.map g.event) := by
  fun_induction Window.trim p f w with
  | case1 w hb =>
      apply Window.trim_of_length_le
      simp [window, hb]
  | case2 w head tail hb hfull settled w' more hrec ih =>
      obtain ⟨buffer, consumed⟩ := w
      obtain rfl : buffer = head :: tail := hb
      have hsettled : Window.settle p f ⟨tail.map g.slot, some (g.slot head).seq⟩ =
          (g.window settled.1, settled.2.map g.event) := by
        rw [seq_slot]
        exact g.settle_renumber f p ⟨tail, some head.seq⟩
      rw [window, List.map_cons, Window.trim_of_lt (by simpa using hfull), hsettled, ih, hrec]
      simp [event]
  | case3 w head tail hb hroom =>
      apply Window.trim_of_length_le
      simpa [window, hb] using hroom

/-- A packet is put in its place from the tail as before, past the same packets.
-/
theorem insertFromTail?_renumber (s : Slot) (b : List Slot) :
    ReorderBuffer.insertFromTail? (g.slot s) (b.map g.slot) =
      (ReorderBuffer.insertFromTail? s b).map (List.map g.slot) := by
  induction b with
  | nil => rfl
  | cons last older ih =>
      simp only [List.map_cons, ReorderBuffer.insertFromTail?, seq_slot, SeqNum.order_add, ih]
      cases SeqNum.order s.seq last.seq <;> simp [Function.comp_def]

/-- A packet finds the same place, or the same twin. -/
theorem insert?_renumber (s : Slot) (b : ReorderBuffer) :
    ReorderBuffer.insert? (b.map g.slot) (g.slot s) =
      (ReorderBuffer.insert? b s).map (List.map g.slot) := by
  simp [ReorderBuffer.insert?, ← List.map_reverse, insertFromTail?_renumber, Function.comp_def]

/-! ## Packets and runs -/

/-- A packet comes too late after renumbering if it did before. -/
theorem staleAfter?_renumber (w : Window) (seq : SeqNum) :
    (g.window w).staleAfter? (seq + k) = (w.staleAfter? seq).map (· + k) := by
  simp [Window.staleAfter?, window, Option.filter_map, Function.comp_def]

/-- **One packet.** -/
theorem feed_renumber (w : Window) (q : Rtp.Packet) :
    Window.feed p f (g.window w) (g.packet q) =
      (g.window (Window.feed p f w q).1, (Window.feed p f w q).2.map g.event) := by
  simp only [Window.feed, seq_packet, staleAfter?_renumber, ofPacket_packet]
  cases w.staleAfter? q.seq with
  | some consumed => rfl
  | none =>
      have hinsert : (g.window w).buffer.insert? (g.slot (Slot.ofPacket f.codec q)) = _ :=
        g.insert?_renumber _ w.buffer
      simp only [Option.map_none, hinsert]
      cases w.buffer.insert? (Slot.ofPacket f.codec q) with
      | none => simp [event]
      | some buffer =>
          have hsettle := g.settle_renumber f p { w with buffer }
          simp only [Option.map_some, window] at hsettle ⊢
          rw [hsettle]
          simp only
          have htrim := g.trim_renumber f p (Window.settle p f { w with buffer }).1
          simp only [window] at htrim
          rw [htrim]
          simp [event]

/-- A unit has no number in it, so a renumbered event gives the unit itself. -/
@[simp] theorem unit?_event (e : Event) : (g.event e).unit? = e.unit? := by
  cases e <;> rfl

/-- Events are counted without their numbers. -/
@[simp] theorem record_event (t : Tally) (e : Event) : t.record (g.event e) = t.record e := by
  cases e <;> simp [event, Tally.record, lostBefore_renumber]

/-- A call leaves the same counters. -/
theorem recordFeed_renumber (t : Tally) (es : List Event) :
    t.recordFeed (es.map g.event) = t.recordFeed es := by
  simp [Tally.recordFeed, List.foldl_map]

/-- A reassembler with all numbers moved on. -/
def reassembler (r : Reassembler) : Reassembler :=
  { r with window := g.window r.window }

/-- An input with its packet renumbered. -/
def input : Reassembler.Input → Reassembler.Input
  | .packet q => .packet (g.packet q)
  | .clear => .clear

/-- **One call.** A reassembler whose window is renumbered goes, with the
renumbered input, where it would have gone, and the same events happen on the way.
-/
theorem step_renumber (r : Reassembler) (i : Reassembler.Input) :
    (g.reassembler r).step (g.input i) =
      (g.reassembler (r.step i).1, (r.step i).2.map g.event) := by
  cases i with
  | packet q =>
      simp [input, Reassembler.step, Reassembler.feed, reassembler, feed_renumber,
        recordFeed_renumber]
  | clear => rfl

end Renumbering

/-- What is seen of a reassembler after a call. -/
structure Report where
  /-- The units that the call gave, in order. -/
  units : List AccessUnit
  tally : Tally
  /-- How many packets wait. -/
  buffered : Nat
  headSeq : Option SeqNum
  consumed : Option SeqNum
  deriving DecidableEq, Repr

/-- A report with all numbers moved on. -/
def Report.shift (k : SeqNum) (report : Report) : Report :=
  { report with headSeq := report.headSeq.map (· + k), consumed := report.consumed.map (· + k) }

namespace Reassembler

/-- What is seen after a call in which events happened. -/
def report (r : Reassembler) (events : List Event) : Report :=
  { units := events.filterMap Event.unit?
    tally := r.tally
    buffered := r.window.buffer.length
    headSeq := r.window.headSeq?
    consumed := r.window.consumed }

/-- What is seen after each of several calls. -/
def reports (r : Reassembler) : List Input → List Report
  | [] => []
  | input :: inputs =>
    let (next, events) := r.step input
    next.report events :: reports next inputs

variable {k : SeqNum} (g : Renumbering k)

/-- What is seen of a renumbered reassembler is what was seen before, but for the
two numbers in it. -/
theorem report_renumber (r : Reassembler) (events : List Event) :
    (g.reassembler r).report (events.map g.event) = (r.report events).shift k := by
  simp [report, Report.shift, Renumbering.reassembler, Renumbering.window, Window.headSeq?,
    List.filterMap_map, Function.comp_def]

/-- Call after call the same is seen: `step_renumber` carries the renumbering on.
-/
theorem reports_reassembler (r : Reassembler) (inputs : List Input) :
    (g.reassembler r).reports (inputs.map g.input) = (r.reports inputs).map (Report.shift k) := by
  induction inputs generalizing r with
  | nil => rfl
  | cons i inputs ih =>
      simp [reports, Renumbering.step_renumber, report_renumber, ih]

/-- **Where a stream starts to count does not matter.**  When the numbers of all
packets that a new reassembler is fed are moved on around the circle, every call
gives the same units and leaves the same counters and as many packets waiting;
and the number at the head and the last that left are moved on as well. -/
theorem reports_renumber {codec : Codec} {clockRate : UInt32} {policy : Policy}
    {r : Reassembler} (created : create codec clockRate policy = .ok r) (inputs : List Input) :
    r.reports (inputs.map g.input) = (r.reports inputs).map (Report.shift k) := by
  have hnew : g.reassembler r = r := by rw [(eq_of_create created).2]; rfl
  rw [← reports_reassembler, hnew]

/-- A stream with a lost packet and a late one, and another after a clearing;
moved on, its numbers go round the circle between the first unit and the hole. -/
theorem reports_renumber_around :
    ∃ r inputs, create .h264 90000 ⟨4, 1, true⟩ = .ok r ∧
      inputs = [.packet (.simple 96 true 1 9000 1 [0x41]),
        .packet (.simple 96 false 3 18000 1 [0x7C, 0x85, 0xA0]),
        .packet (.simple 96 true 4 18000 1 [0x7C, 0x45, 0xA1]),
        .packet (.simple 96 true 2 9000 1 [0x42]), .clear,
        .packet (.simple 96 false 20 27000 1 [0x7C, 0x85, 0xA2])] ∧
      inputs.map (Renumbering.onWire 0xFFFE).input =
        [.packet (.simple 96 true 0xFFFF 9000 1 [0x41]),
        .packet (.simple 96 false 1 18000 1 [0x7C, 0x85, 0xA0]),
        .packet (.simple 96 true 2 18000 1 [0x7C, 0x45, 0xA1]),
        .packet (.simple 96 true 0 9000 1 [0x42]), .clear,
        .packet (.simple 96 false 18 27000 1 [0x7C, 0x85, 0xA2])] ∧
      (r.reports inputs).map (fun x => (x.units.length, x.tally.lost, x.headSeq, x.consumed)) =
        [(1, 0, none, some 1), (0, 0, some 3, some 1), (1, 1, none, some 4),
          (0, 1, none, some 4), (0, 1, none, none), (0, 1, some 20, none)] ∧
      r.reports (inputs.map (Renumbering.onWire 0xFFFE).input) =
        (r.reports inputs).map (Report.shift 0xFFFE) := by
  refine ⟨_, _, create_eq_ok (by decide), rfl, ?_, by decide +kernel,
    reports_renumber _ (create_eq_ok (by decide)) _⟩
  simp [Renumbering.input, Rtp.Packet.simple, Renumbering.onWire_make]

end Reassembler

end RtpReassembly
