import RtpReassembly.Packetizer
import RtpReassembly.Proofs.Intake
import RtpReassembly.Proofs.Wire

/-!
# Shipments in a window

The packets of a shipment, one after the other, come to one access unit.

* `Codec.placement_fragment`, `Codec.rebuilt_fragment`: the header of a fragment
  tells its place, and the header of the unit that was cut up;
* `rejoin?_pieces`: the pieces of a unit are joined to it;
* `absorbAll_shipment`: a window that takes the packets of a shipment gives its
  NAL units.
-/

namespace RtpReassembly

/-- A row of two or more has a first and a second. -/
theorem exists_cons_cons {α : Type} {l : List α} (h : 2 ≤ l.length) :
    ∃ a b rest, l = a :: b :: rest := by
  obtain ⟨a, tail, rfl⟩ := List.exists_cons_of_length_pos (by omega : 0 < l.length)
  obtain ⟨b, rest, rfl⟩ := List.exists_cons_of_length_pos (Nat.lt_of_succ_lt_succ h)
  exact ⟨a, b, rest, rfl⟩

/-! ## Headers -/

namespace Codec

/-- The place of a piece. -/
def placeOf (isFirst isLast : Bool) : Placement :=
  if isFirst then .fragmentStart else if isLast then .fragmentEnd else .fragmentMiddle

/-- All 256 first octets of an H.264 unit: the types that a sender writes are
those that a receiver finds, and the header is rebuilt from a fragment's octets.
-/
theorem octets_h264 : ∀ (first : UInt8) (isFirst isLast : Bool),
    h264.unitType (h264.withUnitType first h264.aggregationType) = 24 ∧
    h264.unitType (h264.withUnitType first h264.fragmentType) = 28 ∧
    Placement.ofFragmentOctet (fragmentOctet isFirst isLast (h264.unitType first)) =
      placeOf isFirst isLast ∧
    (h264.withUnitType first h264.fragmentType &&& 0xE0) |||
      (fragmentOctet isFirst isLast (h264.unitType first) &&& 0x1F) = first :=
  forall_octet (by decide +kernel)

/-- All 256 first octets of an H.265 unit, likewise. -/
theorem octets_h265 : ∀ (first : UInt8) (isFirst isLast : Bool),
    h265.unitType (h265.withUnitType first h265.aggregationType) = 48 ∧
    h265.unitType (h265.withUnitType first h265.fragmentType) = 49 ∧
    Placement.ofFragmentOctet (fragmentOctet isFirst isLast (h265.unitType first)) =
      placeOf isFirst isLast ∧
    (h265.withUnitType first h265.fragmentType &&& 0x81) |||
      ((fragmentOctet isFirst isLast (h265.unitType first) &&& 0x3F) <<< (1 : UInt8)) = first :=
  forall_octet (by decide +kernel)

/-- The header of an aggregation tells that it is one. -/
theorem placement_aggregation (codec : Codec) (first second : UInt8) (records : Bytes) :
    Placement.ofBody codec (codec.aggregationHeader first second ++ records) =
        .aggregationStart ∧
      (codec.aggregationHeader first second ++ records).drop codec.aggregationSkip = records := by
  cases codec with
  | h264 =>
      refine ⟨?_, rfl⟩
      have htype := (octets_h264 first false false).1
      simp [aggregationHeader, nalHeaderLength, Placement.ofBody, Placement.ofH264, htype]
  | h265 =>
      refine ⟨?_, rfl⟩
      have htype := (octets_h265 first false false).1
      simp [aggregationHeader, nalHeaderLength, Placement.ofBody, Placement.ofH265, htype,
        Placement.isH265Single]

variable {codec : Codec} {unit : Bytes}

/-- What stands in front of a piece is as long as a receiver takes it to be. -/
theorem length_fragmentHeader (h : codec.nalHeaderLength ≤ unit.length) (isFirst isLast : Bool) :
    (codec.fragmentHeader isFirst isLast unit).length = codec.fragmentPrefixLength := by
  have hpos : 1 ≤ codec.nalHeaderLength := by cases codec <;> decide
  cases unit with
  | nil => simp at h; omega
  | cons first rest =>
      simp only [fragmentHeader, List.length_append, List.length_cons, List.length_take,
        List.length_nil, fragmentPrefixLength] at h ⊢
      omega

/-- The header of a fragment tells its place, and where the data start. -/
theorem placement_fragment (h : codec.nalHeaderLength ≤ unit.length) (isFirst isLast : Bool)
    (piece : Bytes) :
    Placement.ofBody codec (codec.fragmentHeader isFirst isLast unit ++ piece) =
        placeOf isFirst isLast ∧
      (codec.fragmentHeader isFirst isLast unit ++ piece).drop codec.fragmentPrefixLength =
        piece := by
  cases codec with
  | h264 =>
      obtain ⟨first, rest, rfl⟩ := List.exists_cons_of_length_pos h
      obtain ⟨-, htype, hplace, -⟩ := octets_h264 first isFirst isLast
      refine ⟨?_, rfl⟩
      simp [fragmentHeader, nalHeaderLength, Placement.ofBody, Placement.ofH264, htype, hplace]
  | h265 =>
      obtain ⟨first, second, rest, rfl⟩ := exists_cons_cons h
      obtain ⟨-, htype, hplace, -⟩ := octets_h265 first isFirst isLast
      refine ⟨?_, rfl⟩
      simp [fragmentHeader, nalHeaderLength, Placement.ofBody, Placement.ofH265, htype, hplace,
        Placement.isH265Single]

/-- The header of a unit that was cut up is rebuilt from a fragment. -/
theorem rebuilt_fragment (h : codec.nalHeaderLength ≤ unit.length) (isFirst isLast : Bool)
    (piece : Bytes) :
    codec.rebuiltHeaderOctets? (codec.fragmentHeader isFirst isLast unit ++ piece) =
      some (unit.take codec.nalHeaderLength) := by
  cases codec with
  | h264 =>
      obtain ⟨first, rest, rfl⟩ := List.exists_cons_of_length_pos h
      obtain ⟨-, -, -, hrebuilt⟩ := octets_h264 first isFirst isLast
      simp [fragmentHeader, nalHeaderLength, rebuiltHeaderOctets?, rebuiltHeader?, hrebuilt]
  | h265 =>
      obtain ⟨first, second, rest, rfl⟩ := exists_cons_cons h
      obtain ⟨-, -, -, hrebuilt⟩ := octets_h265 first isFirst isLast
      simp [fragmentHeader, nalHeaderLength, rebuiltHeaderOctets?, rebuiltHeader?, hrebuilt]

end Codec

/-! ## Numbering -/

namespace SeqNum

/-- The `n` numbers from `seq` on. -/
def countFrom (seq : SeqNum) : Nat → List SeqNum
  | 0 => []
  | n + 1 => seq :: countFrom (seq + 1) n

/-- Counting on from where a count ended is one longer count. -/
theorem countFrom_add (seq : SeqNum) (m n : Nat) :
    countFrom seq (m + n) = countFrom seq m ++ countFrom (seq + UInt16.ofNat m) n := by
  induction m generalizing seq with
  | zero => simp [countFrom]
  | succ m ih =>
      have hnext : seq + 1 + UInt16.ofNat m = seq + UInt16.ofNat (m + 1) := by
        rw [UInt16.ofNat_add, UInt16.add_assoc, UInt16.add_comm (UInt16.ofNat m)]
        rfl
      rw [Nat.add_right_comm, countFrom, countFrom, ih, hnext, List.cons_append]

/-- Numbers that are counted are consecutive. -/
theorem consecutive_countFrom (seq : SeqNum) (n : Nat) : Consecutive (countFrom seq n) := by
  induction n generalizing seq with
  | zero => exact .nil
  | succ n ih =>
      cases n with
      | zero => exact .singleton _
      | succ n => exact consecutive_cons_cons.mpr ⟨by simp [follows], ih (seq + 1)⟩

end SeqNum

namespace Sender

variable (s : Sender)

/-- Packets are numbered by counting. -/
theorem number_seqs (timestamp : UInt32) (endsPicture : Bool) (seq : SeqNum)
    (bodies : List Bytes) :
    (s.number timestamp endsPicture seq bodies).map Rtp.Packet.seq =
      SeqNum.countFrom seq bodies.length := by
  induction bodies generalizing seq with
  | nil => rfl
  | cons body rest ih =>
      rw [number, List.map_cons, ih, List.length_cons, SeqNum.countFrom]
      rfl

/-- Packets have the bodies that they were made for. -/
theorem number_bodies (timestamp : UInt32) (endsPicture : Bool) (seq : SeqNum)
    (bodies : List Bytes) :
    (s.number timestamp endsPicture seq bodies).map Rtp.Packet.body = bodies := by
  induction bodies generalizing seq with
  | nil => rfl
  | cons body rest ih =>
      rw [number, List.map_cons, ih]
      rfl

/-- Every packet is a plain one of the sender. -/
theorem exists_simple_of_mem_number {timestamp : UInt32} {endsPicture : Bool} {seq : SeqNum}
    {bodies : List Bytes} {q : Rtp.Packet} (h : q ∈ s.number timestamp endsPicture seq bodies) :
    ∃ marker seq' timestamp body,
      q = .simple s.payloadType marker seq' timestamp s.ssrc body := by
  induction bodies generalizing seq with
  | nil => simp [number] at h
  | cons body rest ih =>
      rcases List.mem_cons.mp h with rfl | h
      · exact ⟨_, _, _, _, rfl⟩
      · exact ih h

/-- The packets of any shipments are numbered by counting. -/
theorem packets_seqs (seq : SeqNum) (items : List Item) :
    ∃ n, (s.packets seq items).map Rtp.Packet.seq = SeqNum.countFrom seq n := by
  induction items generalizing seq with
  | nil => exact ⟨0, rfl⟩
  | cons item items ih =>
      obtain ⟨n, hn⟩ := ih (seq + UInt16.ofNat (item.shipment.bodies s.codec).length)
      refine ⟨(item.shipment.bodies s.codec).length + n, ?_⟩
      rw [packets, List.map_append, number_seqs, hn, SeqNum.countFrom_add]

/-- All packets of a sender are simple ones, with its payload type and source. -/
theorem exists_simple_of_mem_packets {seq : SeqNum} {items : List Item} {q : Rtp.Packet}
    (h : q ∈ s.packets seq items) :
    ∃ marker seq' timestamp body,
      q = .simple s.payloadType marker seq' timestamp s.ssrc body := by
  induction items generalizing seq with
  | nil => simp [packets] at h
  | cons item items ih =>
      rcases List.mem_append.mp h with h | h
      · exact s.exists_simple_of_mem_number h
      · exact ih h

end Sender

/-! ## Absorbing -/

section Pieces

variable {codec : Codec} {unit : Bytes}

/-- Each body with a piece has all of a fragment's octets in front of it. -/
theorem length_of_mem_pieceBodies (h : codec.nalHeaderLength ≤ unit.length) (isFirst : Bool)
    (pieces : List Bytes) :
    ∀ body ∈ Shipment.pieceBodies codec unit isFirst pieces,
      codec.fragmentPrefixLength ≤ body.length := by
  induction pieces generalizing isFirst with
  | nil => simp [Shipment.pieceBodies]
  | cons piece rest ih =>
      intro body hbody
      rcases List.mem_cons.mp hbody with rfl | hbody
      · rw [List.length_append, Codec.length_fragmentHeader h]
        omega
      · exact ih false body hbody

/-- Behind their headers, fragments have the pieces. -/
theorem flatMap_pieceBodies (h : codec.nalHeaderLength ≤ unit.length) (isFirst : Bool)
    (pieces : List Bytes) :
    (Shipment.pieceBodies codec unit isFirst pieces).flatMap
      (fun body => body.drop codec.fragmentPrefixLength) = pieces.flatten := by
  induction pieces generalizing isFirst with
  | nil => rfl
  | cons piece rest ih =>
      rw [Shipment.pieceBodies, List.flatMap_cons, ih, (Codec.placement_fragment h _ _ _).2,
        List.flatten_cons]

/-- **Pieces are joined** to the unit that was cut up. -/
theorem rejoin?_pieces (h : codec.nalHeaderLength ≤ unit.length) {pieces : List Bytes}
    (hpieces : pieces.flatten = unit.drop codec.nalHeaderLength) {start : Slot}
    {rest : List Slot}
    (hbodies : (start :: rest).map Slot.body = Shipment.pieceBodies codec unit true pieces) :
    rejoin? codec start rest = some unit := by
  obtain ⟨piece, more, rfl⟩ : ∃ piece more, pieces = piece :: more := by
    cases pieces with
    | nil => simp [Shipment.pieceBodies] at hbodies
    | cons piece more => exact ⟨piece, more, rfl⟩
  have hheader :
      codec.rebuiltHeaderOctets? start.body = some (unit.take codec.nalHeaderLength) := by
    rw [(List.cons.inj hbodies).1]
    exact Codec.rebuilt_fragment h true _ _
  have hdata : fragmentsData? codec (start :: rest) = some (unit.drop codec.nalHeaderLength) := by
    refine fragmentsData?_eq_some_iff.mpr ⟨?_, ?_⟩
    · intro s hs
      apply length_of_mem_pieceBodies h true (piece :: more) s.body
      rw [← hbodies]
      exact List.mem_map_of_mem hs
    · rw [← hpieces, ← flatMap_pieceBodies h true, ← hbodies, List.flatMap_map]
  rw [rejoin?, hheader, hdata]
  simp

/-- Every piece has a packet. -/
theorem length_pieceBodies (codec : Codec) (unit : Bytes) (isFirst : Bool) (pieces : List Bytes) :
    (Shipment.pieceBodies codec unit isFirst pieces).length = pieces.length := by
  induction pieces generalizing isFirst with
  | nil => rfl
  | cons _ rest ih => exact congrArg (· + 1) (ih false)

/-- A shipment has few packets, and the first of them does not continue another. -/
theorem Shipment.Fits.bodies {shipment : Shipment} {capacity : Nat}
    (fits : shipment.Fits codec capacity) :
    ∃ body rest, shipment.bodies codec = body :: rest ∧
      ¬ (Placement.ofBody codec body).isContinuation ∧
      rest.length ≤ capacity ∧ rest.length + 1 < SeqNum.half := by
  cases shipment with
  | whole unit =>
      obtain ⟨-, -, hsingle⟩ := fits
      exact ⟨unit, [], rfl, by simp [hsingle, Placement.isContinuation], Nat.zero_le _, by decide⟩
  | together first second units =>
      have hstart := (codec.placement_aggregation first second (Aggregation.encode units)).1
      exact ⟨_, [], rfl, by simp [hstart, Placement.isContinuation], Nat.zero_le _, by decide⟩
  | inPieces unit pieces =>
      obtain ⟨hunit, -, -, hcount, hcapacity, hhalf⟩ := fits
      obtain ⟨piece, next, rest, rfl⟩ := exists_cons_cons hcount
      have hstart := (codec.placement_fragment hunit true false piece).1
      refine ⟨_, _, rfl, by simp [hstart, Codec.placeOf, Placement.isContinuation], ?_, ?_⟩
      · rw [length_pieceBodies]
        exact Nat.le_of_succ_le_succ hcapacity
      · rw [length_pieceBodies]
        exact hhalf

/-- The NAL units of a shipment have a length that fits four octets. -/
theorem Shipment.Fits.length_units {shipment : Shipment} {capacity : Nat}
    (fits : shipment.Fits codec capacity) : ∀ unit ∈ shipment.units, unit.length < 2 ^ 32 := by
  intro unit hunit
  cases shipment with
  | together first second units =>
      have := (fits.2 unit hunit).2
      omega
  | whole _ | inPieces _ _ =>
      rw [List.mem_singleton.mp hunit]
      exact fits.2.1

end Pieces

namespace Window

variable {s : Sender} {f : Format} {timestamp : UInt32} {endsPicture : Bool} {unit : Bytes}

/-- The pieces behind the first complete a run. -/
theorem absorbAll_pieces (h : f.codec.nalHeaderLength ≤ unit.length) {start : Slot}
    {middles : List Slot} {consumed : Option SeqNum} (piece : Bytes) (rest : List Bytes)
    (seq : SeqNum) :
    ∃ front stop, (s.number timestamp endsPicture seq
        (Shipment.pieceBodies f.codec unit false (piece :: rest))).map (Slot.ofPacket f.codec) =
          front ++ [stop] ∧ stop.packet.timestamp = timestamp ∧
      absorbAll f ⟨start :: middles, consumed⟩ (front ++ [stop]) =
        (⟨[], some stop.seq⟩, [.ofRun f start (middles ++ front) stop]) := by
  induction rest generalizing piece seq middles with
  | nil =>
      refine ⟨[], _, rfl, rfl, ?_⟩
      have hplace := (Codec.placement_fragment h false true piece).1
      rw [List.nil_append, absorbAll, absorb_end consumed hplace, List.append_nil]
      rfl
  | cons next rest ih =>
      obtain ⟨t, ht⟩ : ∃ t, t = Slot.ofPacket f.codec (.simple s.payloadType (endsPicture && false)
          seq timestamp s.ssrc (f.codec.fragmentHeader false false unit ++ piece)) := ⟨_, rfl⟩
      have hplace : t.placement = .fragmentMiddle := by
        rw [ht]
        exact (Codec.placement_fragment h false false piece).1
      obtain ⟨front, stop, hslots, htime, habsorb⟩ := @ih (middles ++ [t]) next (seq + 1)
      refine ⟨t :: front, stop, ?_, htime, ?_⟩
      · rw [Shipment.pieceBodies, Sender.number, List.map_cons, hslots, ht]
        rfl
      · rw [List.cons_append, absorbAll, absorb_middle consumed hplace, habsorb]
        simp

/-- A packet that is no fragment comes to what it is taken for. -/
theorem absorbAll_whole {body : Bytes} {unit : AccessUnit} (consumed : Option SeqNum)
    (seq : SeqNum) (whole : ¬ (Placement.ofBody f.codec body).isFragment)
    (hunit : ∀ t : Slot, t.placement = Placement.ofBody f.codec body → t.body = body →
      t.packet.timestamp = timestamp → (Event.ofWhole f t).unit? = some unit) :
    ∃ c e, absorbAll f ⟨[], consumed⟩
        ((s.number timestamp endsPicture seq [body]).map (Slot.ofPacket f.codec)) =
          (⟨[], some c⟩, [e]) ∧ e.unit? = some unit := by
  obtain ⟨t, ht⟩ : ∃ t, t = Slot.ofPacket f.codec (.simple s.payloadType (endsPicture && true)
      seq timestamp s.ssrc body) := ⟨_, rfl⟩
  refine ⟨t.seq, .ofWhole f t, ?_, hunit t (by rw [ht]; rfl) (by rw [ht]; rfl) (by rw [ht]; rfl)⟩
  have hwhole : ¬ t.placement.isFragment := by
    rw [ht]
    exact whole
  simp only [Sender.number, List.isEmpty_nil, List.map_cons, List.map_nil, ← ht, absorbAll,
    absorb_whole consumed hwhole, List.append_nil]

/-- **The packets of a shipment** come to one unit. -/
theorem absorbAll_shipment {shipment : Shipment} {capacity : Nat}
    (fits : shipment.Fits f.codec capacity) (consumed : Option SeqNum) (seq : SeqNum) :
    ∃ c e, absorbAll f ⟨[], consumed⟩
        ((s.number timestamp endsPicture seq (shipment.bodies f.codec)).map
          (Slot.ofPacket f.codec)) = (⟨[], some c⟩, [e]) ∧
      e.unit? = some (f.unitAt timestamp (Avcc.encode shipment.units)) := by
  cases shipment with
  | whole unit =>
      obtain ⟨-, -, hsingle⟩ := fits
      apply absorbAll_whole consumed seq (by simp [hsingle, Placement.isFragment])
      intro t hplace hbody htime
      rw [hsingle] at hplace
      simp [Event.ofWhole, assemble, hplace, Event.unit?, hbody, htime, Shipment.units, Avcc.encode]
  | together first second units =>
      obtain ⟨hne, hlen⟩ := fits
      obtain ⟨hstart, hrecords⟩ :=
        Codec.placement_aggregation f.codec first second (Aggregation.encode units)
      have hshort : Aggregation.Short units := by
        intro unit hunit
        have := (hlen unit hunit).2
        omega
      have hcheck := Aggregation.widenedLength?_eq_some_iff.mpr ⟨units, hne, hshort, rfl, rfl⟩
      apply absorbAll_whole consumed seq (by simp [hstart, Placement.isFragment])
      intro t hplace hbody htime
      rw [hstart] at hplace
      simp [Event.ofWhole, assemble, assembleAggregation, hplace, Event.unit?, hbody, htime,
        hrecords, hcheck, Aggregation.widen_encode hshort, Shipment.units]
  | inPieces unit pieces =>
      obtain ⟨hunit, -, hpieces, hcount, -, -⟩ := fits
      obtain ⟨piece, next, rest, rfl⟩ := exists_cons_cons hcount
      obtain ⟨t, ht⟩ : ∃ t, t = Slot.ofPacket f.codec (.simple s.payloadType
          (endsPicture && false) seq timestamp s.ssrc
          (f.codec.fragmentHeader true false unit ++ piece)) := ⟨_, rfl⟩
      have hplace : t.placement = .fragmentStart := by
        rw [ht]
        exact (Codec.placement_fragment hunit true false piece).1
      -- the start waits with an empty row behind it, and each further piece joins
      obtain ⟨front, stop, hslots, htime, habsorb⟩ := @absorbAll_pieces s f timestamp endsPicture
        unit hunit t [] consumed next rest (seq + 1)
      have hall : (s.number timestamp endsPicture seq
          ((Shipment.inPieces unit (piece :: next :: rest)).bodies f.codec)).map
            (Slot.ofPacket f.codec) = t :: (front ++ [stop]) := by
        rw [Shipment.bodies, Shipment.pieceBodies, Sender.number, List.map_cons, hslots, ht]
        rfl
      have hjoin : rejoin? f.codec t (front ++ [stop]) = some unit := by
        refine rejoin?_pieces hunit hpieces ?_
        rw [← hall, List.map_map]
        exact s.number_bodies timestamp endsPicture seq _
      refine ⟨stop.seq, .ofRun f t front stop, ?_, ?_⟩
      · rw [hall, absorbAll, absorb_start consumed hplace, habsorb]
        rfl
      · simp [Event.ofRun, Event.unit?, hjoin, htime, Avcc.encode, Shipment.units]

end Window

end RtpReassembly
