import RtpReassembly.Proofs.Trace

/-!
# Where access units come from

RFC 6184 and RFC 7798 know three ways to put NAL units into packets.  Every
unit that a reassembler emits, in whatever order packets arrive and whatever is
lost, is read off complete rows of packets in exactly one of these ways, and no
packet is read twice.

* `Packing.Carries` says what it means for packets to carry NAL units;
* `Trace.units_carried` is the main statement.
-/

namespace RtpReassembly

/-- The ways in which packets carry NAL units. -/
inductive Packing
  | single
  | aggregation
  | fragments
  deriving DecidableEq, Repr

/-- The packets that an event makes a unit of. -/
def Event.unitPackets (e : Event) : List Rtp.Packet :=
  if e.unit?.isSome then e.slots.map Slot.packet else []

/-- Packets carry NAL units: one packet is a unit as it is; or one packet has
records of units, at least one, behind its header and nothing else; or
fragments from a start over middles to an end have the pieces of one unit
behind their prefixes, and its header is rebuilt from the start. -/
def Packing.Carries (codec : Codec) (packets : List Rtp.Packet) (nals : List Bytes) :
    Packing → Prop
  | .single =>
    ∃ q, packets = [q] ∧ Placement.ofBody codec q.body = .single ∧ nals = [q.body]
  | .aggregation =>
    ∃ q, packets = [q] ∧ Placement.ofBody codec q.body = .aggregationStart ∧ nals ≠ [] ∧
      Aggregation.Short nals ∧
      q.body.drop codec.aggregationSkip = Aggregation.encode nals
  | .fragments =>
    ∃ start middles stop header, packets = start :: (middles ++ [stop]) ∧
      Placement.ofBody codec start.body = .fragmentStart ∧
      (∀ q ∈ middles, Placement.ofBody codec q.body = .fragmentMiddle) ∧
      Placement.ofBody codec stop.body = .fragmentEnd ∧
      (∀ q ∈ packets, codec.fragmentPrefixLength ≤ q.body.length) ∧
      codec.rebuiltHeaderOctets? start.body = some header ∧
      nals = [header ++ packets.flatMap (fun q => q.body.drop codec.fragmentPrefixLength)]

/-- The first packet tells the way. -/
theorem Packing.Carries.unique {codec : Codec} {packets : List Rtp.Packet}
    {nals nals' : List Bytes} {way way' : Packing}
    (h : way.Carries codec packets nals) (h' : way'.Carries codec packets nals') :
    way = way' := by
  cases way <;> cases way' <;> simp only [Packing.Carries] at h h' <;> grind

/-- Aggregations are complete in themselves, so no packet continues one. -/
theorem Placement.ofBody_ne_aggregationMember (codec : Codec) (body : Bytes) :
    Placement.ofBody codec body ≠ .aggregationMember := by
  cases codec
  · simp only [ofBody]
    unfold ofH264
    grind [ofFragmentOctet]
  · simp only [ofBody]
    unfold ofH265
    grind [ofFragmentOctet]

/-- What a row of classified packets forms is carried by it. -/
theorem Forms.carries {f : Format} {row : List Slot} {unit : AccessUnit}
    (h : Forms f row unit) (hrow : ∀ s ∈ row, s.Classified f.codec) :
    ∃ way nals last, Packing.Carries f.codec (row.map Slot.packet) nals way ∧
      (row.map Slot.packet).getLast? = some last ∧
      unit = f.unitAt last.timestamp (Avcc.encode nals) := by
  cases h with
  | @single s placement =>
      have hs := hrow s (by simp)
      exact ⟨.single, [s.body], s.packet, ⟨s.packet, rfl, hs.symm.trans placement, rfl⟩, rfl,
        by simp [Avcc.encode]⟩
  | @aggregation s units placement nonempty short records =>
      have hs := hrow s (by simp)
      have hstart : s.placement = .aggregationStart := by
        rcases placement with h | h
        · exact h
        · exact absurd (hs.symm.trans h) (Placement.ofBody_ne_aggregationMember _ _)
      exact ⟨.aggregation, units, s.packet,
        ⟨s.packet, rfl, hs.symm.trans hstart, nonempty, short, records⟩, rfl, rfl⟩
  | @fragments start stop middles unit run placement next rejoined =>
      obtain ⟨header, hheader, hlen, rfl⟩ := rejoin?_eq_some rejoined
      refine ⟨.fragments, _, stop.packet,
        ⟨start.packet, middles.map Slot.packet, stop.packet, header, by simp, ?_, ?_, ?_, ?_,
          hheader, rfl⟩, by simp [List.getLast?_cons], ?_⟩
      · exact (hrow start (by simp)).symm.trans run.start
      · intro q hq
        obtain ⟨s, hs, rfl⟩ := List.mem_map.mp hq
        exact (hrow s (by simp [hs])).symm.trans (run.middles s hs)
      · exact (hrow stop (by simp)).symm.trans placement
      · intro q hq
        obtain ⟨s, hs, rfl⟩ := List.mem_map.mp hq
        exact hlen s hs
      · simp [Avcc.encode, List.flatMap_map, Slot.body, Rtp.Packet.timestamp]

namespace Reassembler

variable {codec : Codec} {clockRate : UInt32} {policy : Policy}
variable {r : Reassembler} {fed : List Rtp.Packet} {events : List Event}

/-- On any run, each unit is made of the packets that its event is about. -/
theorem Trace.forms (t : Trace codec clockRate policy r fed events) :
    ∀ e ∈ events, ∀ unit, e.unit? = some unit →
      Forms (Format.ofClockRate codec clockRate) e.slots unit := by
  induction t with
  | start _ => simp
  | @feed r fed events packet t ih =>
      intro e he unit hunit
      rcases List.mem_append.mp he with he | he
      · exact ih e he unit hunit
      · rw [← t.format_eq]
        exact (Window.feed_feeding r.window packet).forms e he unit hunit
  | clear _ _ => simp

/-- The packets of the units are some of those that left. -/
theorem unitPackets_sublist (events : List Event) :
    (events.flatMap Event.unitPackets).Sublist
      ((events.flatMap Event.slots).map Slot.packet) := by
  induction events with
  | nil => simp
  | cons e events ih =>
      rw [List.flatMap_cons, List.flatMap_cons, List.map_append]
      refine List.Sublist.append ?_ ih
      unfold Event.unitPackets
      split
      · exact List.Sublist.refl _
      · exact List.nil_sublist _

/-- **No corrupt or partial unit.**  Since the last clearing no packet has gone
into units more often than it was fed.  Each unit is made of consecutive packets
that were fed since then and carry its NAL units in exactly one way; it has the
time of the last of them in milliseconds; and each of its NAL units stands
behind its length, so that a reader gets them back. -/
theorem Trace.units_carried (t : Trace codec clockRate policy r fed events) :
    (events.flatMap Event.unitPackets).Subperm fed ∧
    ∀ e ∈ events, ∀ unit, e.unit? = some unit →
      unit.codec = codec ∧
      (∀ q ∈ e.unitPackets, q ∈ fed) ∧
      SeqNum.Consecutive (e.unitPackets.map Rtp.Packet.seq) ∧
      (∃ last, e.unitPackets.getLast? = some last ∧
        unit.timestamp = UInt64.ofNat (last.timestamp.toNat / (clockRate.toNat / 1000))) ∧
      ∃! way : Packing, ∃ nals, way.Carries codec e.unitPackets nals ∧
        unit.payload = Avcc.encode nals ∧
        ((∀ nal ∈ nals, nal.length < 2 ^ 32) → unit.nalUnits = nals) := by
  have hused : (events.flatMap Event.unitPackets).Subperm fed := by
    refine List.Subperm.trans ?_ t.subperm
    apply (unitPackets_sublist events).subperm.trans
    rw [slotsOf, List.map_append]
    exact (List.sublist_append_left _ _).subperm
  refine ⟨hused, ?_⟩
  intro e he unit hunit
  have hforms := t.forms e he unit hunit
  have hpackets : e.unitPackets = e.slots.map Slot.packet := by
    simp [Event.unitPackets, hunit]
  have hclassified : ∀ s ∈ e.slots, s.Classified codec := by
    intro s hs
    exact t.classified s (List.mem_append_left _ (List.mem_flatMap.mpr ⟨e, he, hs⟩))
  obtain ⟨way, nals, last, hcarries, hlast, rfl⟩ := hforms.carries hclassified
  rw [← hpackets] at hcarries hlast
  refine ⟨rfl, ?_, ?_, ⟨last, hlast, ofClockRate_toMs t.clockRate_le _⟩, way, ?_, ?_⟩
  · intro q hq
    exact hused.subset (List.mem_flatMap.mpr ⟨e, he, hq⟩)
  · rw [hpackets, List.map_map]
    exact hforms.contiguous
  · exact ⟨nals, hcarries, rfl, Avcc.records_encode⟩
  · -- the packets alone tell in which way they are packed
    rintro way' ⟨nals', hcarries', -⟩
    exact hcarries'.unique hcarries

/-- An end that overtakes its start across the wrap of the numbers. -/
theorem units_carried_overtaken :
    ∃ fed r events,
      fed = [.simple 96 true 0 9090 1 [0x7C, 0x45, 0xC0],
        .simple 96 false 65535 9090 1 [0x7C, 0x85, 0xA0]] ∧
      Trace .h264 90000 {} r fed events ∧
      events.filterMap Event.unit? = [⟨.h264, 101, [0, 0, 0, 3, 0x65, 0xA0, 0xC0]⟩] ∧
      (events.flatMap Event.unitPackets).Subperm fed := by
  obtain ⟨r, t⟩ := exists_trace_feedAll .h264 {} (by decide : (1000 : UInt32) ≤ 90000)
    [.simple 96 true 0 9090 1 [0x7C, 0x45, 0xC0], .simple 96 false 65535 9090 1 [0x7C, 0x85, 0xA0]]
  exact ⟨_, r, _, rfl, t, by decide +kernel, t.units_carried.1⟩

end Reassembler

end RtpReassembly
