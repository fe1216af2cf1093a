import RtpReassembly.Receiver
import RtpReassembly.Proofs.Counts
import RtpReassembly.Proofs.Shipping

/-!
# From sender to receiver

Whatever a sender ships comes out of a receiver that plays, as it went in.

* `feedAll_packets`: a window gives the units of shipments, in order;
* `Hears.run`: a receiver brings out what its window gives;
* `Receiver.receives_shipments` is the main statement.
-/

namespace RtpReassembly

namespace Window

variable {p : Policy} {f : Format} {s : Sender}

/-- **Feeding packets in order** amounts to absorbing them. -/
theorem feedAll_absorbAll {fed : List Rtp.Packet} {w : Window} {rest : List Slot}
    (h : Ready f w (fed.map (Slot.ofPacket f.codec) ++ rest) [])
    (near : w.buffer.length + fed.length < SeqNum.half)
    (room : ∀ front, front <+: fed.map (Slot.ofPacket f.codec) →
      (absorbAll f w front).1.buffer.length ≤ p.capacity)
    (allowed : ∀ t, .orphansDiscarded t [] ∈
      (absorbAll f w (fed.map (Slot.ofPacket f.codec))).2 → p.discardOrphans) :
    (feedAll p f w fed).1 = (absorbAll f w (fed.map (Slot.ofPacket f.codec))).1 ∧
      (feedAll p f w fed).2.flatMap Event.serial =
        (absorbAll f w (fed.map (Slot.ofPacket f.codec))).2 := by
  induction fed generalizing w with
  | nil => exact ⟨rfl, rfl⟩
  | cons packet fed ih =>
      rw [List.map_cons, List.cons_append] at h
      rw [List.length_cons] at near
      rw [List.map_cons] at room allowed ⊢
      have hfirst := room [Slot.ofPacket f.codec packet] ⟨_, rfl⟩
      obtain ⟨hwindow, hevents⟩ := feed_absorb (p := p) rfl h.first (fun _ => by omega) hfirst
        (fun t ht => allowed t (List.mem_append_left _ ht))
      have hlength : (absorb f w (Slot.ofPacket f.codec packet)).1.buffer.length ≤
          w.buffer.length + 1 := by
        have hslots := congrArg List.length (absorb_slots (f := f) w (Slot.ofPacket f.codec packet))
        simp only [List.length_append, List.length_singleton] at hslots
        omega
      obtain ⟨hwindow', hevents'⟩ := ih h.absorb (by omega)
        (fun front hfront => room (_ :: front) (List.cons_prefix_cons.mpr ⟨rfl, hfront⟩))
        (fun t ht => allowed t (List.mem_append_right _ ht))
      simp only [feedAll, absorbAll]
      rw [hwindow, hwindow', List.flatMap_append, hevents, hevents']
      exact ⟨rfl, rfl⟩

/-- **A shipment comes through** a window that waits for it, as one unit. -/
theorem feedAll_shipment {item : Sender.Item} {consumed : Option SeqNum} {seq : SeqNum}
    {fed : List Rtp.Packet} {rest : List Slot}
    (hfed : fed = s.number item.timestamp item.endsPicture seq (item.shipment.bodies f.codec))
    (fits : item.shipment.Fits f.codec p.capacity)
    (h : Ready f ⟨[], consumed⟩ (fed.map (Slot.ofPacket f.codec) ++ rest) []) :
    ∃ c, (feedAll p f ⟨[], consumed⟩ fed).1 = ⟨[], some c⟩ ∧
      (feedAll p f ⟨[], consumed⟩ fed).2.filterMap Event.unit? =
        [f.unitAt item.timestamp (Avcc.encode item.shipment.units)] ∧
      Ready f ⟨[], some c⟩ rest [] := by
  obtain ⟨c, e, habsorb, hunit⟩ := @absorbAll_shipment s f item.timestamp item.endsPicture
    item.shipment p.capacity fits consumed seq
  rw [← hfed] at habsorb
  obtain ⟨body, others, hbodies, -, hcapacity, hhalf⟩ := fits.bodies
  have hlen : fed.length = others.length + 1 := by
    have hcount := congrArg List.length
      (s.number_bodies item.timestamp item.endsPicture seq (item.shipment.bodies f.codec))
    rwa [List.length_map, ← hfed, hbodies] at hcount
  -- the buffer is empty again behind the last packet, which may be one too many
  have room : ∀ front, front <+: fed.map (Slot.ofPacket f.codec) →
      (absorbAll f ⟨[], consumed⟩ front).1.buffer.length ≤ p.capacity := by
    intro front ⟨back, hback⟩
    cases back with
    | nil =>
        rw [List.append_nil] at hback
        rw [hback, habsorb]
        exact Nat.zero_le _
    | cons t back =>
        have hcount := congrArg List.length hback
        have hslots := congrArg List.length (absorbAll_slots (f := f) ⟨[], consumed⟩ front)
        simp only [List.length_append, List.length_cons, List.length_map, List.length_nil]
          at hcount hslots
        omega
  have allowed : ∀ t, .orphansDiscarded t [] ∈
      (absorbAll f ⟨[], consumed⟩ (fed.map (Slot.ofPacket f.codec))).2 → p.discardOrphans := by
    intro t ht
    rw [habsorb, List.mem_singleton] at ht
    rw [← ht] at hunit
    simp [Event.unit?] at hunit
  obtain ⟨hwindow, hevents⟩ := feedAll_absorbAll h (by simpa [hlen] using hhalf) room allowed
  refine ⟨c, ?_, ?_, ?_⟩
  · rw [hwindow, habsorb]
  · rw [← filterMap_unit?_serial, hevents, habsorb]
    simp [hunit]
  · have hready := h.absorbAll
    rwa [habsorb] at hready

/-- **Shipments come through**, one after the other. -/
theorem feedAll_packets {items : List Sender.Item} {consumed : Option SeqNum} {seq : SeqNum}
    (hcodec : s.codec = f.codec)
    (fits : ∀ item ∈ items, item.shipment.Fits f.codec p.capacity)
    (h : Ready f ⟨[], consumed⟩ ((s.packets seq items).map (Slot.ofPacket f.codec)) []) :
    (feedAll p f ⟨[], consumed⟩ (s.packets seq items)).2.filterMap Event.unit? =
      items.map (fun item => f.unitAt item.timestamp (Avcc.encode item.shipment.units)) := by
  induction items generalizing consumed seq with
  | nil => rfl
  | cons item items ih =>
      rw [Sender.packets, hcodec, List.map_append] at h
      obtain ⟨c, hwindow, hunits, hready⟩ :=
        feedAll_shipment rfl (fits item List.mem_cons_self) h
      rw [Sender.packets, hcodec, feedAll_append, List.filterMap_append, hwindow, hunits,
        ih (fun item' h' => fits item' (List.mem_cons_of_mem item h')) hready]
      rfl

/-- A window that has seen nothing is ready for all packets of a sender. -/
theorem ready_packets {items : List Sender.Item} (seq : SeqNum) (hcodec : s.codec = f.codec)
    (fits : ∀ item ∈ items, item.shipment.Fits f.codec p.capacity) (hne : items ≠ []) :
    Ready f {} ((s.packets seq items).map (Slot.ofPacket f.codec)) [] := by
  obtain ⟨item, items, rfl⟩ := List.exists_cons_of_ne_nil hne
  refine ⟨isOpen_nil, ?_, ?_, by simp, ?_⟩
  · obtain ⟨n, hn⟩ := s.packets_seqs seq (item :: items)
    have hrow : (⟨[], none⟩ : Window).row
        ((s.packets seq (item :: items)).map (Slot.ofPacket f.codec)) = seq.countFrom n := by
      rw [← hn, row, Option.toList_none, List.nil_append, List.nil_append, List.map_map]
      rfl
    rw [hrow]
    exact seq.consecutive_countFrom n
  · intro _
    obtain ⟨body, others, hbodies, hopening, -, -⟩ := (fits item List.mem_cons_self).bodies
    refine ⟨Slot.ofPacket f.codec (.simple s.payloadType (item.endsPicture && others.isEmpty) seq
      item.timestamp s.ssrc body), ?_, hopening⟩
    rw [Sender.packets, hcodec, hbodies]
    rfl
  · intro t ht
    obtain ⟨q, -, rfl⟩ := List.mem_map.mp ht
    exact Slot.classified_ofPacket f.codec q

end Window

namespace Receiver

variable {config : LegConfig} {policy : Policy} {r : Receiver} {s : Sender}

/-- A leg that plays and is to receive the packets of a sender. -/
structure Hears (r : Receiver) (s : Sender) : Prop where
  notDisposed : r.gate.disposed = false
  playing : r.gate.stage = .playing
  payloadType : ∀ pt ∈ r.payloadType, pt = s.payloadType
  ssrc : ∀ x ∈ r.ssrc, x = s.ssrc

/-- A gate lets all units through while the session plays. -/
theorem deliver_playing (reassembler : Reassembler) {g : Gate} (notDisposed : g.disposed = false)
    (playing : g.stage = .playing) (events : List Event) :
    (deliver reassembler g events).1.disposed = false ∧
      (deliver reassembler g events).1.stage = .playing ∧
      (deliver reassembler g events).2.1 = events.filterMap Event.unit? := by
  induction events generalizing g with
  | nil => exact ⟨notDisposed, playing, rfl⟩
  | cons e events ih =>
      cases hunit : e.unit? with
      | none =>
          simp only [deliver, hunit, List.filterMap_cons]
          exact ih notDisposed playing
      | some unit =>
          have hforward : g.forward unit =
              ({ g with forwarded := g.forwarded + 1 }, some unit, []) := by
            simp [Gate.forward, notDisposed, playing, Stage.isPlaying]
          simp only [deliver, hunit, hforward, List.filterMap_cons, Option.toList_some,
            List.singleton_append, List.cons.injEq, true_and]
          exact ih notDisposed playing

/-- A packet of the sender is accepted, and what it completes is delivered. -/
theorem Hears.submit (h : r.Hears s) (hpayloadType : s.payloadType < 128) (marker : Bool)
    (seq : SeqNum) (timestamp : UInt32) (body : Bytes) :
    let packet := Rtp.Packet.simple s.payloadType marker seq timestamp s.ssrc body
    (r.submit packet.raw).1.Hears s ∧
      (r.submit packet.raw).1.reassembler = (r.reassembler.feed packet).1 ∧
      (r.submit packet.raw).2.result = .ok () ∧
      (r.submit packet.raw).2.units = (r.reassembler.feed packet).2.filterMap Event.unit? := by
  intro packet
  have hdecode : Rtp.Packet.decode packet.raw = .ok packet :=
    Rtp.Packet.decode_simple hpayloadType marker seq timestamp s.ssrc body
  have hpt : r.payloadType.any (· != s.payloadType) = false := by
    cases hr : r.payloadType with
    | none => rfl
    | some pt => simpa using h.payloadType pt hr
  have hssrc : r.ssrc.any (· != s.ssrc) = false := by
    cases hr : r.ssrc with
    | none => rfl
    | some x => simpa using h.ssrc x hr
  have hheader : packet.header.payloadType = s.payloadType ∧ packet.header.ssrc = s.ssrc :=
    ⟨rfl, rfl⟩
  have haccept : r.accept packet.raw = .ok packet := by
    simp [accept, h.notDisposed, hdecode, hheader, hpt, hssrc]
  obtain ⟨hnot, hplaying, hunits⟩ := deliver_playing (r.reassembler.feed packet).1 h.notDisposed
    h.playing (r.reassembler.feed packet).2
  have hssrc' : ∀ x ∈ some packet.header.ssrc, x = s.ssrc :=
    fun x hx => (Option.some.inj hx).symm
  rw [Receiver.submit, haccept]
  exact ⟨⟨hnot, hplaying, h.payloadType, hssrc'⟩, rfl, rfl, hunits⟩

/-- **A leg delivers** what its reassembler makes of the packets of the sender. -/
theorem Hears.run (h : r.Hears s) (hpayloadType : s.payloadType < 128) {fed : List Rtp.Packet}
    (plain : ∀ q ∈ fed, ∃ marker seq timestamp body,
      q = .simple s.payloadType marker seq timestamp s.ssrc body) :
    let reactions := (r.run (fed.map (fun q => .submit q.raw))).2
    reactions.map Reaction.result = fed.map (fun _ => .submitted (.ok ())) ∧
      reactions.flatMap Reaction.units =
        (r.reassembler.run (fed.map .packet)).2.filterMap Event.unit? := by
  induction fed generalizing r with
  | nil => exact ⟨rfl, rfl⟩
  | cons q fed ih =>
      obtain ⟨marker, seq, timestamp, body, hq⟩ := plain q List.mem_cons_self
      obtain ⟨hhears, hfed, hresult, hunits⟩ := h.submit hpayloadType marker seq timestamp body
      rw [← hq] at hhears hfed hresult hunits
      obtain ⟨hresults, hrest⟩ := ih hhears (fun q' h' => plain q' (List.mem_cons_of_mem q h'))
      rw [hfed] at hrest
      simp only [List.map_cons, Receiver.run, step, Reassembler.run, Reassembler.step,
        List.flatMap_cons, List.filterMap_append]
      exact ⟨by rw [hresult, hresults], by rw [hunits, hrest]⟩

/-- A signal changes nothing but the stage. -/
theorem exists_stage_advance (g : Gate) (signal : Signal) :
    ∃ stage, (g.advance signal).1 = { g with stage } := by
  unfold Gate.advance
  split
  · exact ⟨g.stage, rfl⟩
  · split
    · exact ⟨g.stage, rfl⟩
    · exact ⟨_, rfl⟩

/-- Signals change the stage of a leg and nothing else. -/
theorem run_advance (r : Receiver) (signals : List Signal) :
    ∃ stage, (r.run (signals.map .advance)).1 = { r with gate := { r.gate with stage } } := by
  induction signals generalizing r with
  | nil => exact ⟨r.gate.stage, rfl⟩
  | cons signal signals ih =>
      obtain ⟨next, hnext⟩ := exists_stage_advance r.gate signal
      obtain ⟨stage, hstage⟩ := ih (r.advance signal).1
      refine ⟨stage, hstage.trans ?_⟩
      simp only [Receiver.advance, hnext]

/-- A receiver that was created is a fresh one, and its clock has a whole tick in
each millisecond. -/
theorem eq_of_create (h : Receiver.create config policy = .ok r) :
    1000 ≤ config.clockRate ∧
      r = { payloadType := config.payloadType, ssrc := config.ssrc,
            reassembler := { format := .ofClockRate config.codec config.clockRate, policy } } := by
  unfold Receiver.create at h
  split at h
  · simp at h
  · rename_i reassembler hcreate
    obtain ⟨hclock, rfl⟩ := Reassembler.eq_of_create hcreate
    exact ⟨hclock, (Except.ok.inj h).symm⟩

/-- **What a sender ships comes out as it went in.**  Let a new leg be brought to
play, and let it be asked for nothing but packets of the sender.  Shipments that
fit are numbered from any number on and submitted packet by packet.  Every
packet is accepted; there is one access unit for each shipment, in order, with
its time and its NAL units; and these are all NAL units that were shipped. -/
theorem receives_shipments {signals : List Signal} {items : List Sender.Item}
    (created : Receiver.create config policy = .ok r)
    (playing : (r.run (signals.map .advance)).1.gate.stage = .playing)
    (codec : s.codec = config.codec) (payloadType : s.payloadType < 128)
    (asked : ∀ pt ∈ config.payloadType, pt = s.payloadType)
    (source : ∀ x ∈ config.ssrc, x = s.ssrc)
    (fits : ∀ item ∈ items, item.shipment.Fits config.codec policy.capacity) (seq : SeqNum) :
    let packets := s.packets seq items
    let reactions :=
      ((r.run (signals.map .advance)).1.run (packets.map (fun q => .submit q.raw))).2
    let units := reactions.flatMap Reaction.units
    reactions.map Reaction.result = packets.map (fun _ => .submitted (.ok ())) ∧
      units.map (fun u => (u.codec, u.timestamp, u.nalUnits)) =
        items.map (fun item => (config.codec,
          UInt64.ofNat (item.timestamp.toNat / (config.clockRate.toNat / 1000)),
          item.shipment.units)) ∧
      units.flatMap AccessUnit.nalUnits = Sender.units items := by
  intro packets reactions units
  obtain ⟨hclock, hr⟩ := eq_of_create created
  obtain ⟨stage, hstage⟩ := run_advance r signals
  have hhears : (r.run (signals.map .advance)).1.Hears s := by
    refine ⟨?_, playing, ?_, ?_⟩
    · rw [hstage, hr]
    · rwa [hstage, hr]
    · rwa [hstage, hr]
  obtain ⟨hresults, hunits⟩ := @Hears.run _ s hhears payloadType packets
    (fun q hq => s.exists_simple_of_mem_packets hq)
  have hshipped : units = items.map (fun item =>
      (Format.ofClockRate config.codec config.clockRate).unitAt item.timestamp
        (Avcc.encode item.shipment.units)) := by
    apply hunits.trans
    rw [hstage, hr, Reassembler.run_packets]
    cases items with
    | nil => rfl
    | cons item items =>
        exact Window.feedAll_packets codec fits
          (Window.ready_packets seq codec fits (List.cons_ne_nil item items))
  have hread : ∀ item ∈ items, Avcc.records (Avcc.encode item.shipment.units) =
      item.shipment.units := fun item hitem => Avcc.records_encode (fits item hitem).length_units
  refine ⟨hresults, ?_, ?_⟩
  · rw [hshipped, List.map_map]
    refine List.map_congr_left fun item hitem => ?_
    simp only [Function.comp_apply, AccessUnit.nalUnits, Format.unitAt, hread item hitem,
      Reassembler.ofClockRate_toMs hclock]
    rfl
  · rw [hshipped, Sender.units, List.flatMap_map]
    exact List.flatMap_congr hread

/-- An aggregation, a unit in three pieces, one of them empty, and a whole unit,
across the wrap of the numbers. -/
theorem receives_shipments_wrapped :
    ∃ config r s items, Receiver.create config {} = .ok r ∧
      items = [⟨9090, false, .together 0x78 0 [[0x67, 0x42], [0x68]]⟩,
        ⟨9090, true, .inPieces [0x65, 0xA0, 0xC0] [[0xA0], [], [0xC0]]⟩,
        ⟨12690, true, .whole [0x41, 0x9A]⟩] ∧
      (∀ item ∈ items, item.shipment.Fits config.codec 1024) ∧
      (((r.run [.advance .sdpReceived, .advance .playReceived]).1.run
          ((Sender.packets s 65534 items).map (fun q => .submit q.raw))).2.flatMap
        Reaction.units).flatMap AccessUnit.nalUnits =
          [[0x67, 0x42], [0x68], [0x65, 0xA0, 0xC0], [0x41, 0x9A]] := by
  have fits : ∀ item ∈ ([⟨9090, false, .together 0x78 0 [[0x67, 0x42], [0x68]]⟩,
      ⟨9090, true, .inPieces [0x65, 0xA0, 0xC0] [[0xA0], [], [0xC0]]⟩,
      ⟨12690, true, .whole [0x41, 0x9A]⟩] : List Sender.Item), item.shipment.Fits .h264 1024 := by
    intro item hitem
    simp only [List.mem_cons, List.not_mem_nil, or_false] at hitem
    rcases hitem with rfl | rfl | rfl
    · exact ⟨by decide, by decide⟩
    · exact ⟨by decide, by decide, rfl, by decide, by decide, by decide⟩
    · exact ⟨by decide, by decide, by decide⟩
  refine ⟨⟨.h264, 90000, some 96, none⟩, _, ⟨.h264, 96, 1⟩, _, rfl, rfl, fits, ?_⟩
  exact (@receives_shipments ⟨.h264, 90000, some 96, none⟩ {} _ ⟨.h264, 96, 1⟩
    [.sdpReceived, .playReceived] _ rfl rfl rfl (by decide) (by simp) (by simp) fits 65534).2.2

end Receiver

end RtpReassembly
