import RtpReassembly.Proofs.Counts
import RtpReassembly.Proofs.Origin

/-!
# Where the packets of a stream are

A packet that is fed is refused, or it waits, or it has left in one of four ways,
or it was forgotten when the reassembler was cleared.  No event keeps the sum of
these: one packet comes in before it, or none, and any number of them leave with
it, and it changes no more than one counter of packets.

* `whereabouts` lists every packet fed beside the `PacketPlace` where it is;
* `whereabouts_perm`: each is there once;
* `counter_run`: the counters count packets by place, and `packetsAt_unit`,
  `packetsAt_abandoned`, `packetsAt_waiting` say which packets are at the places
  that have no counter;
* `packets_conserved` puts these together.
-/

namespace RtpReassembly

/-- Where a packet is that was fed. -/
inductive PacketPlace
  /-- Refused, since it came too late. -/
  | stale
  /-- Refused, since a packet with its number waits. -/
  | duplicate
  /-- In a unit that was emitted. -/
  | unit
  | dropped
  /-- Gone with a run that was given up. -/
  | abandoned
  | evicted
  /-- In the buffer. -/
  | waiting
  /-- Forgotten when the reassembler was cleared. -/
  | cleared
  deriving DecidableEq, Repr

/-- Packets beside the places where they are. -/
abbrev Whereabouts := List (PacketPlace × Rtp.Packet)

namespace Whereabouts

/-- The packets at one place. -/
def packetsAt (l : Whereabouts) (place : PacketPlace) : List Rtp.Packet :=
  (l.filter (·.1 = place)).map Prod.snd

/-- The packets of slots, all at one place. -/
def put (place : PacketPlace) (slots : List Slot) : Whereabouts :=
  slots.map fun s => (place, s.packet)

@[simp] theorem packetsAt_nil (place : PacketPlace) : packetsAt [] place = [] := rfl

@[simp] theorem packetsAt_append (l l' : Whereabouts) (place : PacketPlace) :
    packetsAt (l ++ l') place = packetsAt l place ++ packetsAt l' place := by
  simp [packetsAt]

@[simp] theorem packetsAt_singleton (place place' : PacketPlace) (packet : Rtp.Packet) :
    packetsAt [(place, packet)] place' = if place = place' then [packet] else [] := by
  by_cases h : place = place' <;> simp [packetsAt, h]

/-- Slots put at a place are all there and nowhere else. -/
@[simp] theorem packetsAt_put (place place' : PacketPlace) (slots : List Slot) :
    (put place slots).packetsAt place' =
      if place = place' then slots.map Slot.packet else [] := by
  by_cases h : place = place' <;>
    simp [packetsAt, put, h, List.filter_map, Function.comp_def]

@[simp] theorem packets_put (place : PacketPlace) (slots : List Slot) :
    (put place slots).map Prod.snd = slots.map Slot.packet := by
  simp [put]

/-- Every packet is at one of the places. -/
theorem length_eq (l : Whereabouts) :
    l.length = (l.packetsAt .stale).length + (l.packetsAt .duplicate).length +
      (l.packetsAt .dropped).length + (l.packetsAt .evicted).length +
      (l.packetsAt .waiting).length + (l.packetsAt .unit).length +
      (l.packetsAt .abandoned).length + (l.packetsAt .cleared).length := by
  induction l with
  | nil => rfl
  | cons entry l ih =>
      obtain ⟨place, packet⟩ := entry
      rw [← List.singleton_append]
      cases place <;>
        simp only [packetsAt_append, packetsAt_singleton, List.length_append, ih, reduceCtorEq,
          if_true, if_false, List.length_cons, List.length_nil] <;> omega

end Whereabouts

namespace Event

/-- Where an event brings packets that happens as `packet` is fed: that packet,
if it is refused, and otherwise those that leave. -/
def brings (packet : Rtp.Packet) : Event → Whereabouts
  | .stale _ _ => [(.stale, packet)]
  | .duplicate _ => [(.duplicate, packet)]
  | .emitted _ first others => .put .unit (first :: others)
  | .dropped _ head => .put .dropped [head]
  | .orphansDiscarded first others => .put .dropped (first :: others)
  | .runAbandoned _ first others _ => .put .abandoned (first :: others)
  | .evicted head => .put .evicted [head]
  | .classified _ | .gaveUp _ _ | .orphanWaits _ => []

/-- Where events bring packets that happen as `packet` is fed. -/
def bringAll (packet : Rtp.Packet) (es : List Event) : Whereabouts :=
  es.flatMap (brings packet)

/-- The packets of a run that is given up. -/
def abandonedPackets : Event → List Rtp.Packet
  | .runAbandoned _ first others _ => (first :: others).map Slot.packet
  | _ => []

@[simp] theorem bringAll_cons (packet : Rtp.Packet) (e : Event) (es : List Event) :
    bringAll packet (e :: es) = e.brings packet ++ bringAll packet es := rfl

/-- The packets that events bring into units are those of the emitted runs. -/
theorem packetsAt_bringAll_unit (packet : Rtp.Packet) (es : List Event) :
    (bringAll packet es).packetsAt .unit = es.flatMap unitPackets := by
  induction es with
  | nil => rfl
  | cons e es ih =>
      have hone : (e.brings packet).packetsAt .unit = e.unitPackets := by
        cases e <;> simp [brings, unitPackets, unit?, slots]
      simp [hone, ih]

/-- The packets that events abandon are those of the runs given up. -/
theorem packetsAt_bringAll_abandoned (packet : Rtp.Packet) (es : List Event) :
    (bringAll packet es).packetsAt .abandoned = es.flatMap abandonedPackets := by
  induction es with
  | nil => rfl
  | cons e es ih =>
      have hone : (e.brings packet).packetsAt .abandoned = e.abandonedPackets := by
        cases e <;> simp [brings, abandonedPackets]
      simp [hone, ih]

/-- No event brings a packet to the buffer, or forgets one. -/
theorem packetsAt_bringAll_kept {place : PacketPlace} (h : place = .waiting ∨ place = .cleared)
    (packet : Rtp.Packet) (es : List Event) : (bringAll packet es).packetsAt place = [] := by
  induction es with
  | nil => rfl
  | cons e es ih =>
      have hone : (e.brings packet).packetsAt place = [] := by
        rcases h with rfl | rfl <;> cases e <;> simp [brings]
      simp [hone, ih]

/-- An event that refuses nothing brings the packets that leave to their place. -/
theorem packets_brings {e : Event} (h : ¬ e.isRefusal) (packet : Rtp.Packet) :
    (e.brings packet).map Prod.snd = e.slots.map Slot.packet := by
  cases e <;> simp_all [brings, isRefusal, slots]

end Event

namespace Tally

/-- The counter of the packets at a place; zero if they have none. -/
def counter (t : Tally) : PacketPlace → Nat
  | .stale => t.stale
  | .duplicate => t.duplicates
  | .dropped => t.dropped
  | .evicted => t.evicted
  | .unit | .abandoned | .waiting | .cleared => 0

/-- Whether packets are counted at a place. -/
def counts : PacketPlace → Bool
  | .stale | .duplicate | .dropped | .evicted => true
  | .unit | .abandoned | .waiting | .cleared => false

/-- Events count the packets that they bring to a place. -/
theorem counter_recordAll {place : PacketPlace} (h : counts place) (t : Tally) (packet : Rtp.Packet)
    (es : List Event) :
    (t.recordAll es).counter place =
      t.counter place + ((Event.bringAll packet es).packetsAt place).length := by
  induction es generalizing t with
  | nil => rfl
  | cons e es ih =>
      have hstep : (t.record e).counter place =
          t.counter place + ((e.brings packet).packetsAt place).length := by
        cases place <;> cases h <;> cases e <;> simp [record, counter, Event.brings]
      have hrest := ih (t.record e)
      simp only [recordAll, List.foldl_cons, Event.bringAll_cons,
        Whereabouts.packetsAt_append, List.length_append] at hrest ⊢
      omega

/-- The counter of units grows by one for each unit that was given. -/
theorem recordAll_accessUnits (t : Tally) (es : List Event) :
    (t.recordAll es).accessUnits = t.accessUnits + (es.filterMap Event.unit?).length := by
  induction es generalizing t with
  | nil => rfl
  | cons e es ih =>
      have hstep : (t.record e).accessUnits = t.accessUnits + e.unit?.toList.length := by
        cases e <;> rfl
      have hrest := ih (t.record e)
      cases hunit : e.unit? <;>
        simp only [hunit, recordAll, List.foldl_cons, List.filterMap_cons, Option.toList_none,
          Option.toList_some, List.length_nil, List.length_cons] at hstep hrest ⊢ <;> omega

end Tally

namespace Window

variable {p : Policy} {f : Format}

/-- Moves bring the packets that leave to their places. -/
theorem Moves.packets_bringAll {w w' : Window} {es : List Event} (h : Moves p f w es w')
    (packet : Rtp.Packet) :
    (Event.bringAll packet es).map Prod.snd = (es.flatMap Event.slots).map Slot.packet := by
  have hrefusals := List.countP_eq_zero.mp h.countP_isRefusal
  rw [Event.bringAll, List.map_flatMap, List.map_flatMap]
  exact List.flatMap_congr fun e he => Event.packets_brings (hrefusals e he) packet

/-- **One packet.**  It comes to its place, or it waits; and what waited before
has come to a place, or waits still. -/
theorem Feeding.whereabouts {w w' : Window} {packet : Rtp.Packet} {es : List Event}
    (h : Feeding p f w packet (w', es)) :
    ((Event.bringAll packet es).map Prod.snd ++ w'.buffer.map Slot.packet).Perm
      (packet :: w.buffer.map Slot.packet) := by
  cases h with
  | stale _ _ | duplicate _ _ => exact .refl _
  | taken _ inserted moves =>
      have hperm := (ReorderBuffer.insert?_perm inserted).map Slot.packet
      have hbuffer := moves.buffer_eq
      simp only at hbuffer
      rw [hbuffer, List.map_append] at hperm
      simpa [Event.brings, moves.packets_bringAll packet, Slot.ofPacket] using hperm

end Window

namespace Reassembler

/-- The packets among inputs. -/
def Input.packets : List Input → List Rtp.Packet
  | [] => []
  | .packet p :: inputs => p :: packets inputs
  | .clear :: inputs => packets inputs

/-- Where the packets of inputs are in the end, and those that wait before. -/
def whereabouts (r : Reassembler) : List Input → Whereabouts
  | [] => .put .waiting r.window.buffer
  | .packet p :: inputs => Event.bringAll p (r.feed p).2 ++ whereabouts (r.feed p).1 inputs
  | .clear :: inputs => .put .cleared r.window.buffer ++ whereabouts r.clear inputs

variable (r : Reassembler) (inputs : List Input)

/-- **Every packet is at one place.** -/
theorem whereabouts_perm :
    ((r.whereabouts inputs).map Prod.snd).Perm
      (r.window.buffer.map Slot.packet ++ Input.packets inputs) := by
  induction inputs generalizing r with
  | nil => simp [whereabouts, Input.packets]
  | cons input inputs ih =>
      cases input with
      | packet p =>
          have hfeed : Window.Feeding r.policy r.format r.window p
              ((r.feed p).1.window, (r.feed p).2) := Window.feed_feeding r.window p
          have hplaces := hfeed.whereabouts.append_right (Input.packets inputs)
          rw [List.append_assoc] at hplaces
          simp only [whereabouts, List.map_append, Input.packets]
          exact ((ih _).append_left _).trans (hplaces.trans List.perm_middle.symm)
      | clear =>
          simp only [whereabouts, List.map_append, Whereabouts.packets_put, Input.packets]
          exact (ih r.clear).append_left _

/-- The counters count packets by place. -/
theorem counter_run {place : PacketPlace} (h : Tally.counts place) :
    (r.run inputs).1.tally.counter place =
      r.tally.counter place + ((r.whereabouts inputs).packetsAt place).length := by
  induction inputs generalizing r with
  | nil => cases place <;> cases h <;> simp [run, whereabouts]
  | cons input inputs ih =>
      cases input with
      | packet p =>
          have hfeed : (r.feed p).1.tally.counter place = r.tally.counter place +
              ((Event.bringAll p (r.feed p).2).packetsAt place).length := by
            refine (Tally.counter_recordAll h _ p _).trans ?_
            cases place <;> rfl
          simp only [run, step, whereabouts, Whereabouts.packetsAt_append, List.length_append]
          rw [ih, hfeed]
          omega
      | clear =>
          simp only [run, step, whereabouts, Whereabouts.packetsAt_append]
          rw [ih]
          cases place <;> cases h <;> simp [clear]

/-- Packets and units are counted one by one. -/
theorem tally_run :
    (r.run inputs).1.tally.packets = r.tally.packets + (Input.packets inputs).length ∧
      (r.run inputs).1.tally.accessUnits =
        r.tally.accessUnits + ((r.run inputs).2.filterMap Event.unit?).length := by
  induction inputs generalizing r with
  | nil => exact ⟨rfl, rfl⟩
  | cons input inputs ih =>
      cases input with
      | packet p =>
          have hpackets : (r.feed p).1.tally.packets = r.tally.packets + 1 :=
            congrArg Tally.packets (Tally.recordAll_packets r.tally _ (r.feed p).2)
          have hunits : (r.feed p).1.tally.accessUnits =
              r.tally.accessUnits + ((r.feed p).2.filterMap Event.unit?).length :=
            Tally.recordAll_accessUnits _ _
          obtain ⟨hrest₁, hrest₂⟩ := ih (r.feed p).1
          simp only [run, step, Input.packets, List.filterMap_append, List.length_cons,
            List.length_append]
          omega
      | clear => exact ih r.clear

/-- The packets at the places that have no counter of packets. -/
theorem packetsAt_whereabouts :
    (r.whereabouts inputs).packetsAt .waiting =
        (r.run inputs).1.window.buffer.map Slot.packet ∧
      (r.whereabouts inputs).packetsAt .unit =
        (r.run inputs).2.flatMap Event.unitPackets ∧
      (r.whereabouts inputs).packetsAt .abandoned =
        (r.run inputs).2.flatMap Event.abandonedPackets := by
  induction inputs generalizing r with
  | nil => simp [run, whereabouts]
  | cons input inputs ih =>
      cases input with
      | packet p =>
          obtain ⟨hwaiting, hunit, habandoned⟩ := ih (r.feed p).1
          simp [run, step, whereabouts, hwaiting, hunit, habandoned,
            Event.packetsAt_bringAll_kept, Event.packetsAt_bringAll_unit,
            Event.packetsAt_bringAll_abandoned]
      | clear => simpa [run, step, whereabouts] using ih r.clear

/-- Without a clearing no packet is forgotten. -/
theorem packetsAt_cleared (h : .clear ∉ inputs) :
    (r.whereabouts inputs).packetsAt .cleared = [] := by
  induction inputs generalizing r with
  | nil => simp [whereabouts]
  | cons input inputs ih =>
      obtain ⟨hinput, hinputs⟩ := not_or.mp fun hmem => h (List.mem_cons.mpr hmem)
      cases input with
      | packet p => simp [whereabouts, Event.packetsAt_bringAll_kept, ih _ hinputs]
      | clear => exact absurd rfl hinput

variable {codec : Codec} {clockRate : UInt32} {policy : Policy} {r}

/-- **Packets are conserved.**  Whatever a new reassembler is given, each packet
fed is at exactly one place, where it is counted or named by an event or waits
or was forgotten by a clearing; so the counter of packets is the sum over the
places.  And as many units are counted as are handed out. -/
theorem packets_conserved (created : create codec clockRate policy = .ok r) :
    let final := (r.run inputs).1
    let events := (r.run inputs).2
    let places := r.whereabouts inputs
    (places.map Prod.snd).Perm (Input.packets inputs) ∧
    (places.packetsAt .stale).length = final.tally.stale ∧
    (places.packetsAt .duplicate).length = final.tally.duplicates ∧
    (places.packetsAt .dropped).length = final.tally.dropped ∧
    (places.packetsAt .evicted).length = final.tally.evicted ∧
    places.packetsAt .waiting = final.window.buffer.map Slot.packet ∧
    places.packetsAt .unit = events.flatMap Event.unitPackets ∧
    places.packetsAt .abandoned = events.flatMap Event.abandonedPackets ∧
    (.clear ∉ inputs → places.packetsAt .cleared = []) ∧
    final.tally.packets =
      final.tally.stale + final.tally.duplicates + final.tally.dropped + final.tally.evicted +
        final.window.buffer.length + (events.flatMap Event.unitPackets).length +
        (events.flatMap Event.abandonedPackets).length +
        (places.packetsAt .cleared).length ∧
    final.tally.accessUnits = (events.filterMap Event.unit?).length := by
  have hempty : r.window.buffer = [] := by rw [(eq_of_create created).2]
  have htally : r.tally = {} := by rw [(eq_of_create created).2]
  have hperm := whereabouts_perm r inputs
  rw [hempty, List.map_nil, List.nil_append] at hperm
  have hstale := @counter_run r inputs .stale rfl
  have hduplicate := @counter_run r inputs .duplicate rfl
  have hdropped := @counter_run r inputs .dropped rfl
  have hevicted := @counter_run r inputs .evicted rfl
  obtain ⟨hpackets, hunits⟩ := tally_run r inputs
  simp only [htally, Tally.counter, Nat.zero_add] at *
  obtain ⟨hwaiting, hunit, habandoned⟩ := packetsAt_whereabouts r inputs
  refine ⟨hperm, hstale.symm, hduplicate.symm, hdropped.symm, hevicted.symm, hwaiting, hunit,
    habandoned, packetsAt_cleared r inputs, ?_, hunits⟩
  have hlength := hperm.length_eq
  rw [List.length_map, Whereabouts.length_eq, hwaiting, hunit, habandoned,
    List.length_map] at hlength
  omega

/-- A run that brings a packet to every place.  The evicted start leaves two
orphans behind, and the clearing forgets a packet behind a hole. -/
theorem packets_conserved_everywhere :
    ∃ r inputs, create .h264 90000 ⟨2, 1, true⟩ = .ok r ∧
      inputs = [.packet (.simple 96 true 1 9000 1 [0x41]),
        .packet (.simple 96 true 1 9000 1 [0x41]),
        .packet (.simple 96 false 2 9000 1 [0x7C, 0x85, 0xA0]),
        .packet (.simple 96 false 2 9000 1 [0x7C, 0x85, 0xA1]),
        .packet (.simple 96 false 4 9000 1 [0x7C, 0x85, 0xA2]),
        .packet (.simple 96 false 5 9000 1 [0x7C, 0x05, 0xB0]),
        .packet (.simple 96 false 6 9000 1 [0x7C, 0x05, 0xB1]),
        .packet (.simple 96 true 9 9000 1 [0x41]), .clear,
        .packet (.simple 96 false 20 9000 1 [0x7C, 0x85, 0xA3])] ∧
      (r.whereabouts inputs).map (fun (place, q) => (place, q.seq)) =
        [(.unit, 1), (.stale, 1), (.duplicate, 2), (.abandoned, 2), (.evicted, 4),
          (.dropped, 5), (.dropped, 6), (.cleared, 9), (.waiting, 20)] ∧
      (r.run inputs).1.tally = ⟨9, 1, 1, 1, 2, 1, 1, 1⟩ ∧
      ((r.whereabouts inputs).map Prod.snd).Perm (Input.packets inputs) :=
  ⟨_, _, create_eq_ok (by decide), rfl, by decide +kernel, by decide +kernel,
    (packets_conserved _ (create_eq_ok (by decide))).1⟩

end Reassembler

end RtpReassembly
