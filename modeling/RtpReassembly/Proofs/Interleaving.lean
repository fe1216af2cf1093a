import RtpReassembly.Proofs.Balance

/-!
# Interleaved streams

The streams of a capture are replayed together, but a datagram touches its own leg
only.  So a leg does what it would do if nothing else were captured, and how the
datagrams of several streams are interleaved does not matter to any of them.

* `Shuffled` and `Interleaved` say which captures differ in nothing else;
* `Receiver.submit_asking` lets a lone leg take the place of one that is routed to;
* `Alike` compares two replays, and `Alike.shuffled`, `Alike.described` and
  `Alike.interleaved` take it through stretches, descriptions and captures;
* `streams_apart` is the main statement.
-/

namespace RtpReassembly

open Capture

/-- The stream that a payload type stands for: the last with it. -/
def Sdp.Description.streamOf? (d : Sdp.Description) (pt : UInt8) : Option Sdp.VideoStream :=
  (d.videoStreams.filter (·.payloadType = pt)).getLast?

namespace Capture

/-- A record without its time. -/
def Record.untimed (x : Record) : Record :=
  { x with captureMs := 0 }

/-- `Shuffled xs ys`: records without a description are captured at other times and
in another order, but those of each payload type in the same. -/
structure Shuffled (xs ys : List Record) : Prop where
  plain : ∀ x ∈ xs, x.kind ≠ .sdp
  contents : (xs.map Record.untimed).Perm (ys.map Record.untimed)
  datagrams : ∀ pt, datagramsOf pt xs = datagramsOf pt ys

/-- `Interleaved xs ys`: every stretch without a description is shuffled. -/
inductive Interleaved : List Record → List Record → Prop
  | stretch {xs ys : List Record} (h : Shuffled xs ys) : Interleaved xs ys
  | described {xs ys rest rest' : List Record} {x y : Record} (h : Shuffled xs ys)
      (kind : x.kind = .sdp) (same : x.untimed = y.untimed) (later : Interleaved rest rest') :
      Interleaved (xs ++ x :: rest) (ys ++ y :: rest')

/-- The packet of a datagram is of the payload type that the datagram is routed by. -/
theorem Record.payloadType_of_decode {x : Record} {pt : UInt8} {packet : Rtp.Packet}
    (header : x.payloadType? = some pt) (decoded : Rtp.Packet.decode x.body = .ok packet) :
    packet.header.payloadType = pt := by
  obtain ⟨kind, captureMs, body⟩ := x
  unfold Rtp.Packet.decode at decoded
  cases hread : Rtp.Header.read body with
  | error e => simp [hread] at decoded
  | ok parsed =>
      cases hpadding : Rtp.Packet.splitPadding? parsed.1.padding parsed.2 with
      | none => simp [hread, hpadding] at decoded
      | some parts =>
          obtain rfl : _ = packet := by simpa [hread, hpadding] using decoded
          cases kind <;> simp_all [Record.payloadType?]

namespace Shuffled

variable {xs ys : List Record} (h : Shuffled xs ys)

include h

theorem plain_right : ∀ y ∈ ys, y.kind ≠ .sdp := by
  intro y hy
  obtain ⟨x, hx, hxy⟩ := List.mem_map.mp
    (h.contents.mem_iff.mpr (List.mem_map_of_mem (f := Record.untimed) hy))
  have hkind : x.untimed.kind = y.untimed.kind := congrArg Record.kind hxy
  exact hkind ▸ h.plain x hx

theorem length_eq : xs.length = ys.length := by
  simpa using h.contents.length_eq

end Shuffled

/-- What does not depend on times is found as often among the same contents. -/
theorem countP_untimed {xs ys : List Record}
    (contents : (xs.map Record.untimed).Perm (ys.map Record.untimed)) {p : Record → Bool}
    (untimed : ∀ x, p x.untimed = p x) : xs.countP p = ys.countP p := by
  have hmap : ∀ zs : List Record, (zs.map Record.untimed).countP p = zs.countP p := by
    intro zs
    rw [List.countP_map]
    exact congrArg (List.countP · zs) (funext untimed)
  rw [← hmap xs, ← hmap ys, contents.countP_eq]

/-- A payload type has no datagrams exactly if no record has it. -/
theorem datagramsOf_eq_nil_iff {pt : UInt8} {xs : List Record} :
    datagramsOf pt xs = [] ↔ xs.countP (·.payloadType? = some pt) = 0 := by
  simp [datagramsOf]

/-- Only the payload types that there are need a look. -/
theorem shuffled_iff {xs ys : List Record} :
    Shuffled xs ys ↔
      (∀ x ∈ xs, x.kind ≠ .sdp) ∧ (xs.map Record.untimed).Perm (ys.map Record.untimed) ∧
        (xs.filterMap Record.payloadType?).all fun pt => datagramsOf pt xs = datagramsOf pt ys := by
  simp only [List.all_eq_true, decide_eq_true_eq]
  refine ⟨fun h => ⟨h.plain, h.contents, fun pt _ => h.datagrams pt⟩,
    fun ⟨plain, contents, datagrams⟩ => ⟨plain, contents, fun pt => ?_⟩⟩
  by_cases hpt : pt ∈ xs.filterMap Record.payloadType?
  · exact datagrams pt hpt
  · have hnone : xs.countP (·.payloadType? = some pt) = 0 := by simpa using hpt
    have hcount := countP_untimed contents (p := (·.payloadType? = some pt)) fun _ => rfl
    rw [datagramsOf_eq_nil_iff.mpr hnone, datagramsOf_eq_nil_iff.mpr (hcount ▸ hnone)]

instance (xs ys : List Record) : Decidable (Shuffled xs ys) :=
  decidable_of_iff _ shuffled_iff.symm

end Capture

namespace Receiver

variable {r : Receiver} {asked : Option UInt8} {pt : UInt8} {x : Record}

/-- A leg that asks for another payload type, or for none. -/
def asking (r : Receiver) (asked : Option UInt8) : Receiver :=
  { r with payloadType := asked }

/-- A leg that asks for nothing else accepts the same among datagrams of one payload
type. -/
theorem accept_asking (own : r.payloadType = some pt) (other : ∀ a ∈ asked, a = pt)
    (header : x.payloadType? = some pt) : (r.asking asked).accept x.body = r.accept x.body := by
  have hasked : asked.any (· != pt) = false := any_ne_eq_false_iff.mpr other
  have hown : r.payloadType.any (· != pt) = false := by simp [own]
  unfold accept
  cases hdecode : Rtp.Packet.decode x.body with
  | error e => rfl
  | ok packet =>
      simp only [asking, Record.payloadType_of_decode header hdecode, hasked, hown]
      rfl

/-- Whether a leg asks for its payload type or for any makes no difference to
datagrams that have it. -/
theorem submit_asking (own : r.payloadType = some pt) (other : ∀ a ∈ asked, a = pt)
    (header : x.payloadType? = some pt) :
    (r.asking asked).submit x.body = ((r.submit x.body).1.asking asked, (r.submit x.body).2) := by
  have haccept := accept_asking own other header
  unfold submit
  rw [haccept]
  cases r.accept x.body <;> rfl

@[simp] theorem submit_payloadType (r : Receiver) (raw : Bytes) :
    (r.submit raw).1.payloadType = r.payloadType := by
  unfold submit
  cases r.accept raw <;> rfl

/-- Such a leg brings out the same units. -/
theorem unitsFor_asking (own : r.payloadType = some pt) (other : ∀ a ∈ asked, a = pt)
    (xs : List Record) :
    (r.asking asked).unitsFor (datagramsOf pt xs) = r.unitsFor (datagramsOf pt xs) := by
  induction xs generalizing r with
  | nil => rfl
  | cons x xs ih =>
      rw [datagramsOf_cons]
      by_cases header : x.payloadType? = some pt
      · have hrest := ih ((submit_payloadType r x.body).trans own)
        simp only [header, if_true, List.singleton_append, unitsFor_cons,
          submit_asking own other header, hrest]
      · simpa [header] using ih own

end Receiver

/-- The leg of a stream is one that was created and set to play. -/
theorem Sdp.VideoStream.leg_asking {policy : Policy} {s : Sdp.VideoStream}
    (clock : 1000 ≤ s.clockRate) (asked : Option UInt8) :
    ∃ leg, Receiver.create { codec := s.codec, clockRate := s.clockRate, payloadType := asked }
        policy = .ok leg ∧
      (leg.run [.advance .sdpReceived, .advance .playReceived]).1 =
        (s.leg policy).asking asked := by
  simp only [Receiver.create, Reassembler.create_eq_ok clock]
  exact ⟨_, rfl, rfl⟩

attribute [ext] Summary

namespace Replay

variable {r r' next : Replay} {x : Record} {xs ys : List Record}

/-- Two replays that differ in what was hashed only. -/
structure Alike (r r' : Replay) : Prop where
  policy : r'.policy = r.policy
  unsupported : r'.unsupported = r.unsupported
  legs : r'.legs = r.legs
  summary : r'.summary = r.summary

/-- Replays that are alike count the same. -/
theorem Alike.total_eq (h : Alike r r') : r'.total = r.total := by
  rw [total, total, h.legs, h.summary]

/-- Passing stretches that are shuffled, the legs end up the same. -/
theorem legsAfter_shuffled (hxs : Shuffled xs ys) (t : Table UInt8 Receiver) :
    legsAfter t ys = legsAfter t xs := by
  simp only [legsAfter, hxs.datagrams]

/-- **A stretch** that is shuffled leaves replays alike.  What is not counted record
by record, errors and units, follows from the balance. -/
theorem Alike.shuffled (h : Alike r r') (balanced : Balanced r) (balanced' : Balanced r')
    (hxs : Shuffled xs ys) (hnext : (r.addRecords xs).result = .ok next) :
    ∃ next', (r'.addRecords ys).result = .ok next' ∧ Alike next next' ∧
      Balanced next ∧ Balanced next' ∧
      ∀ pt, unitsOf pt (r'.handed ys) = unitsOf pt (r.handed xs) := by
  obtain ⟨reached, hresult, hpassed, hunits⟩ := addRecords_stretch hxs.plain balanced.nodup
  obtain rfl : next = reached := Except.ok.inj (hnext.symm.trans hresult)
  obtain ⟨next', hresult', hpassed', hunits'⟩ :=
    addRecords_stretch hxs.plain_right balanced'.nodup
  have hbalanced := (addRecords_balanced hresult balanced).1
  have hbalanced' := (addRecords_balanced hresult' balanced').1
  have hlegs : next'.legs = next.legs := by
    rw [hpassed'.legs, hpassed.legs, h.legs, legsAfter_shuffled hxs]
  have htally : next'.summary.tally = next.summary.tally := by
    rw [hpassed'.tally, hpassed.tally, h.summary]
  have htotal : next'.total = next.total := by rw [total, total, hlegs, htally]
  have hrtp : next'.summary.rtpRecords = next.summary.rtpRecords := by
    rw [hpassed'.rtpRecords, hpassed.rtpRecords, h.summary, countP_untimed hxs.contents fun _ => rfl]
  have hignored : next'.summary.ignored = next.summary.ignored := by
    rw [hpassed'.ignored, hpassed.ignored, h.summary, h.legs, countP_untimed hxs.contents fun _ => rfl]
  refine ⟨next', hresult', ⟨?_, ?_, hlegs, ?_⟩, hbalanced, hbalanced', fun pt => ?_⟩
  · rw [hpassed'.policy, hpassed.policy, h.policy]
  · rw [hpassed'.unsupported, hpassed.unsupported, h.unsupported]
  · ext1
    · rw [hpassed'.records, hpassed.records, h.summary, hxs.length_eq]
    · exact hrtp
    · rw [hbalanced'.units, hbalanced.units, htotal]
    · -- errors are what is left of the datagrams
      have hdatagrams := hbalanced.datagrams
      have hdatagrams' := hbalanced'.datagrams
      rw [hrtp, hignored, htotal] at hdatagrams'
      omega
    · exact hignored
    · exact htally
    · rw [hpassed'.sha256, hpassed.sha256, h.summary]
  · rw [hunits', hunits, h.legs, hxs.datagrams]

/-- **A description** does the same in replays that are alike. -/
theorem Alike.described (h : Alike r r') (balanced : Balanced r) (balanced' : Balanced r')
    {y : Record} (kind : x.kind = .sdp) (same : x.untimed = y.untimed)
    (hnext : (r.addRecord x).result = .ok next) :
    ∃ next', (r'.addRecord y).result = .ok next' ∧ Alike next next' ∧
      Balanced next ∧ Balanced next' := by
  obtain ⟨d, reads, clocks, rfl⟩ := (addRecord_description_iff kind).mp hnext
  have hy : y.kind = .sdp ∧ y.description? = some d := by
    obtain ⟨kindX, captureMs, body⟩ := x
    obtain ⟨kindY, captureMs', body'⟩ := y
    simp only [Record.untimed, Record.mk.injEq, true_and] at same
    obtain ⟨rfl, rfl⟩ := same
    exact ⟨kind, reads⟩
  have hnext' : (r'.addRecord y).result = .ok (r'.renewed y d) :=
    (addRecord_description_iff hy.1).mpr ⟨d, hy.2, clocks, rfl⟩
  refine ⟨_, hnext', ⟨h.policy, rfl, ?_, ?_⟩,
    ((addRecord_effect hnext).balanced balanced).1,
    ((addRecord_effect hnext').balanced balanced').1⟩
  · simp only [renewed, h.policy]
  · simp only [renewed, noted, h.total_eq, h.summary, kind, hy.1]

/-- **A capture** that is interleaved in another way leaves replays alike, and hands
out the same units for each payload type. -/
theorem Alike.interleaved (h : Alike r r') (balanced : Balanced r) (balanced' : Balanced r')
    (hxs : Interleaved xs ys) (hnext : (r.addRecords xs).result = .ok next) :
    ∃ next', (r'.addRecords ys).result = .ok next' ∧ Alike next next' ∧
      ∀ pt, unitsOf pt (r'.handed ys) = unitsOf pt (r.handed xs) := by
  induction hxs generalizing r r' with
  | stretch hxs =>
      obtain ⟨next', hresult, halike, -, -, hunits⟩ := h.shuffled balanced balanced' hxs hnext
      exact ⟨next', hresult, halike, hunits⟩
  | @described xs ys rest rest' x y hxs kind same _ ih =>
      -- a stretch, then the description behind it, then the rest
      obtain ⟨r₁, hfirst, hlater⟩ := exists_of_addRecords_append hnext
      obtain ⟨r₂, hsecond, hrest⟩ := exists_of_addRecords_cons hlater
      obtain ⟨r₁', hfirst', halike₁, hb₁, hb₁', hunits₁⟩ :=
        h.shuffled balanced balanced' hxs hfirst
      obtain ⟨r₂', hsecond', halike₂, hb₂, hb₂'⟩ := halike₁.described hb₁ hb₁' kind same hsecond
      obtain ⟨next', hrest', halike, hunits⟩ := ih halike₂ hb₂ hb₂' hrest
      have hheader : x.payloadType? = none := by simp [Record.payloadType?, kind]
      have hheader' : y.payloadType? = none := by
        rw [← hheader]
        exact (congrArg Record.payloadType? same).symm
      refine ⟨next', ?_, halike, fun pt => ?_⟩
      · rw [(addRecords_append hfirst' _).1, (addRecords_cons hsecond' _).1, hrest']
      · rw [(addRecords_append hfirst' _).2, (addRecords_cons hsecond' _).2.2,
          (addRecords_append hfirst _).2, (addRecords_cons hsecond _).2.2]
        simp [unitsOf_cons, hheader, hheader', hunits₁, hunits]

/-- What is handed out during a stretch behind a record. -/
theorem handed_stretch {before after : List Record}
    (h : (r.addRecords (before ++ x :: (xs ++ after))).result = .ok r') :
    ∃ r₁ r₂, (r.addRecords before).result = .ok r₁ ∧ (r₁.addRecord x).result = .ok r₂ ∧
      ((r.handed (before ++ x :: (xs ++ after))).drop (before.length + 1)).take xs.length =
        r₂.handed xs := by
  obtain ⟨r₁, hbefore, hlater⟩ := exists_of_addRecords_append h
  obtain ⟨r₂, hx, hrest⟩ := exists_of_addRecords_cons hlater
  obtain ⟨r₃, hxs, -⟩ := exists_of_addRecords_append hrest
  have hlengthBefore : (r.handed before).length = before.length := by
    simpa using congrArg List.length (addRecords_units hbefore).2
  have hlength : (r₂.handed xs).length = xs.length := by
    simpa using congrArg List.length (addRecords_units hxs).2
  refine ⟨r₁, r₂, hbefore, hx, ?_⟩
  rw [(addRecords_append hbefore _).2, (addRecords_cons hx _).2.2, (addRecords_append hxs _).2,
    ← hlengthBefore, ← hlength]
  simp

/-- With the legs of a description, a payload type gives what a leg of its stream gives
by itself. -/
theorem unitsOf_stretch {policy : Policy} {d : Sdp.Description} {pt : UInt8}
    {stream : Sdp.VideoStream} {asked : Option UInt8}
    (hlegs : r.legs = legsFor policy [] d.videoStreams) (plain : ∀ x ∈ xs, x.kind ≠ .sdp)
    (hstream : d.streamOf? pt = some stream) (own : ∀ a ∈ asked, a = pt) :
    unitsOf pt (r.handed xs) =
      ((stream.leg policy).asking asked).unitsFor (datagramsOf pt xs) := by
  have hpt : stream.payloadType = pt := by
    simpa using List.of_mem_filter (List.mem_of_getLast? hstream)
  have hleg : r.legs.get? pt = some (stream.leg policy) := by
    rw [hlegs, get?_legsFor, ← Sdp.Description.streamOf?, hstream]
    rfl
  have hnodup : r.legs.keys.Nodup := by
    rw [hlegs]
    exact @nodup_legsFor policy [] List.nodup_nil _
  obtain ⟨-, -, -, hunits⟩ := addRecords_stretch plain hnodup
  rw [hunits, hleg]
  exact (Receiver.unitsFor_asking (congrArg some hpt) own xs).symm

/-- **Streams do not interfere.**  Let a capture be replayed to its end, and let its
units stand beside the records at which they are handed out.  Behind a description,
up to the next or to the end, a payload type with a leg gives what a leg by itself
gives that is set up for the last stream with this payload type, plays, and is given
its datagrams and no others.  So another capture whose records come at other times and
whose stretches are interleaved in another way is replayed to its end too, with the
same units for each payload type, and the same summary up to the fingerprint. -/
theorem streams_apart {policy : Policy} {source : Source} {summary : Summary}
    (replayed : (run policy source).result = .ok summary) :
    let records := source.readAll.1
    let beside := handed { policy } records
    ((run policy source).units = beside.flatMap Prod.snd ∧ beside.map Prod.fst = records) ∧
    (∀ (before stretch after : List Record) (sdp : Record),
      records = before ++ sdp :: (stretch ++ after) → sdp.kind = .sdp →
      (∀ x ∈ stretch, x.kind ≠ .sdp) →
      ∃ d, Sdp.Description.read (Utf8.decodeLossy sdp.body) = .ok d ∧
        ∀ pt stream, d.streamOf? pt = some stream →
        ∀ asked : Option UInt8, (∀ a ∈ asked, a = pt) →
        ∃ leg, Receiver.create
            { codec := stream.codec, clockRate := stream.clockRate, payloadType := asked }
            policy = .ok leg ∧
          let alone := (leg.run [.advance .sdpReceived, .advance .playReceived]).1
          alone.gate.stage = .playing ∧
          unitsOf pt ((beside.drop (before.length + 1)).take stretch.length) =
            alone.unitsFor (datagramsOf pt stretch)) ∧
    ∀ other : Source, other.readAll.2 = none → Interleaved records other.readAll.1 →
      ∃ summary', (run policy other).result = .ok summary' ∧
        { summary' with sha256 := summary.sha256 } = summary ∧
        ∀ pt, unitsOf pt (handed { policy } other.readAll.1) = unitsOf pt beside := by
  intro records beside
  obtain ⟨-, r, hresult, rfl⟩ := run_eq_ok_iff.mp replayed
  refine ⟨?_, ?_, ?_⟩
  · rw [run_units]
    exact addRecords_units hresult
  · intro before stretch after sdp hsplit kind plain
    replace hresult : (addRecords { policy } records).result = .ok r := hresult
    rw [hsplit] at hresult
    obtain ⟨r₁, r₂, hbefore, hsdp, hduring⟩ := handed_stretch hresult
    rw [← hsplit] at hduring
    have hpolicy : r₁.policy = policy := addRecords_policy hbefore
    obtain ⟨d, reads, clocks, rfl⟩ := (addRecord_description_iff kind).mp hsdp
    refine ⟨d, (Record.read_of_description? reads).2, fun pt stream hstream asked own => ?_⟩
    have hclock := clocks stream (List.mem_of_mem_filter (List.mem_of_getLast? hstream))
    obtain ⟨leg, hleg, halone⟩ := Sdp.VideoStream.leg_asking hclock asked
    refine ⟨leg, hleg, ?_⟩
    simp only [halone]
    refine ⟨rfl, (congrArg (unitsOf pt) hduring).trans (unitsOf_stretch ?_ plain hstream own)⟩
    rw [renewed, hpolicy]
  · intro other hread hother
    obtain ⟨r', hresult', halike, hunits⟩ :=
      Alike.interleaved ⟨rfl, rfl, rfl, rfl⟩ (balanced_start policy) (balanced_start policy)
        hother hresult
    refine ⟨_, run_eq_ok_iff.mpr ⟨hread, r', hresult', rfl⟩, ?_, hunits⟩
    rw [halike.total_eq, halike.summary]

/-- A capture of two streams, and of one that takes the place of the first. -/
def duet (t : UInt64) (early late : List Bytes) : List Record :=
  [⟨.fileHeader, t, []⟩] ++
    ⟨.sdp, t, Utf8.encode
      "m=video 0 RTP/AVP 96 97\na=rtpmap:96 H264/90000\na=rtpmap:97 H265/90000"⟩ ::
    (early.map (⟨.rtp, t, ·⟩) ++
      ⟨.sdp, t, Utf8.encode "m=video 0 RTP/AVP 96\na=rtpmap:96 H265/90000"⟩ ::
      late.map (⟨.rtp, t, ·⟩))

/-- Units of one stream stand between the fragments of a unit of the other, or
behind it. -/
theorem streams_apart_renegotiated :
    let single (seq : SeqNum) := (Rtp.Packet.simple 96 true seq 9000 1 [0x41]).raw
    let opening := (Rtp.Packet.simple 97 false 5 9000 2 [0x62, 0x01, 0x93, 0xA0]).raw
    let closing := (Rtp.Packet.simple 97 true 6 9000 2 [0x62, 0x01, 0x53, 0xB0]).raw
    let renewed := (Rtp.Packet.simple 96 true 7 9000 3 [0x02, 0x01, 0xAA]).raw
    let crossed := duet 1 [single 1, opening, single 2, [0x80], closing] [renewed, closing]
    let inTurn := duet 2 [[0x80], opening, closing, single 1, single 2] [closing, renewed]
    let source (records : List Record) := Source.ofBytes (records.flatMap Record.encode)
    (run {} (source crossed)).units ≠ (run {} (source inTurn)).units ∧
      ∃ summary summary', (run {} (source crossed)).result = .ok summary ∧
        (run {} (source inTurn)).result = .ok summary' ∧
        { summary with sha256 := "" } = ⟨10, 7, 4, 1, 1, ⟨5, 4, 0, 0, 0, 0, 0, 0⟩, ""⟩ ∧
        { summary' with sha256 := summary.sha256 } = summary ∧
        ∀ pt, unitsOf pt (handed { policy := {} } (source inTurn).readAll.1) =
          unitsOf pt (handed { policy := {} } (source crossed).readAll.1) := by
  intro single opening closing renewed crossed inTurn source
  have hcrossed : (source crossed).readAll = (crossed, none) := by decide +kernel
  have hinTurn : (source inTurn).readAll = (inTurn, none) := by decide +kernel
  have hinterleaved : Interleaved crossed inTurn :=
    .described (by decide +kernel) rfl rfl
      (.described (by decide +kernel) rfl rfl (.stretch (by decide +kernel)))
  have hrun : ((run {} (source crossed)).result.toOption.map fun s => { s with sha256 := "" }) =
      some ⟨10, 7, 4, 1, 1, ⟨5, 4, 0, 0, 0, 0, 0, 0⟩, ""⟩ := by decide +kernel
  refine ⟨by decide +kernel, ?_⟩
  cases hresult : (run {} (source crossed)).result with
  | error e => simp [hresult, Except.toOption] at hrun
  | ok summary =>
      obtain ⟨-, -, hother⟩ := streams_apart hresult
      obtain ⟨summary', hresult', hsummary, hunits⟩ := hother (source inTurn) (by rw [hinTurn])
        (by rwa [hcrossed, hinTurn])
      exact ⟨summary, summary', rfl, hresult',
        by simpa [hresult, Except.toOption] using hrun, hsummary, hunits⟩

end Replay

end RtpReassembly
