import RtpReassembly.Proofs.Capture.Reading
import RtpReassembly.Proofs.Routing

/-!
# Captures cut short

A device may fail at any octet of a record, whatever it took at once before.  What it
has taken by then is read up to the cut and no further: no part of a record is taken
for a record, and no cut for the end of a capture.

* `cutAfter` says what is there in the first octets of a capture;
* `Took`, `writeRecord_took`: a write that fails has left a true part;
* `Steady.reads_part`: a part of a record is an error, unless it is empty;
* `Steady.readAll_prefix`, `addRecords_units_prefix`: what stands in front of a cut does not
  depend on what stood behind it;
* `capture_cut_short` is the main statement.
-/

namespace RtpReassembly

open Capture

namespace Capture

/-- What a reader says of the first `n` octets of a record, if there are no more. -/
def Record.cutError (r : Record) (n : Nat) : CaptureError :=
  if n < headLength then .truncated headLength n
  else .truncated r.body.length (n - headLength)

/-- What is there in the first `n` octets of a capture: the records that lie completely
in them, and what is wrong with the octets behind these, if there are any. -/
def cutAfter : Nat → List Record → List Record × Option CaptureError
  | _, [] => ([], none)
  | n, r :: records =>
    if r.length ≤ n then
      let rest := cutAfter (n - r.length) records
      (r :: rest.1, rest.2)
    else ([], if n = 0 then none else some (r.cutError n))

/-- A record that lies in front of the cut is read. -/
theorem cutAfter_add (r : Record) (records : List Record) (n : Nat) :
    cutAfter (r.length + n) (r :: records) = (r :: (cutAfter n records).1, (cutAfter n records).2) := by
  rw [cutAfter, if_pos (Nat.le_add_right _ _), Nat.add_sub_cancel_left]

/-- The record that is cut gives the error, unless none of it is left. -/
theorem cutAfter_of_lt {r : Record} {n : Nat} (h : n < r.length) (records : List Record) :
    cutAfter n (r :: records) = ([], if n = 0 then none else some (r.cutError n)) := by
  rw [cutAfter, if_neg (Nat.not_le.mpr h)]

theorem cutAfter_zero (records : List Record) : cutAfter 0 records = ([], none) := by
  cases records with
  | nil => rfl
  | cons r records => exact cutAfter_of_lt (Nat.lt_of_lt_of_le (by decide) (Nat.le_add_right _ _)) _

/-- A true part of a record is shorter than the record. -/
theorem Record.length_part_lt {r : Record} {front back : Bytes} (split : r.encode = front ++ back)
    (short : back ≠ []) : front.length < r.length := by
  rw [← r.length_encode, split, List.length_append]
  exact Nat.lt_add_of_pos_right (List.length_pos_iff.mpr short)

/-! ### Writing up to a failure -/

namespace Device

variable {σ : Type} {d : Device σ}

/-- `Took d s b (s', result)`: trying to write `b` brought a device from `s` to `s'`.  It
has taken all, or else only a part. -/
inductive Took (d : Device σ) {ε : Type} (s : σ) (b : Bytes) : σ × Except ε Unit → Prop
  | all {s' : σ} (taken : d.taken s' = d.taken s ++ b) : Took d s b (s', .ok ())
  | part {s' : σ} {e : ε} {front back : Bytes} (split : b = front ++ back) (short : back ≠ [])
      (taken : d.taken s' = d.taken s ++ front) : Took d s b (s', .error e)

/-- A device that fails at once has taken nothing, which is only a part. -/
theorem Took.nothing {ε : Type} {s s' : σ} {b : Bytes} {e : ε} (hb : b ≠ [])
    (h : d.taken s' = d.taken s) : Took d s b (s', .error e) :=
  .part (List.nil_append b).symm hb (by rw [h, List.append_nil])

/-- What is taken behind the front is taken of all. -/
theorem Took.behind {ε : Type} {s middle : σ} {front b : Bytes} {out : σ × Except ε Unit}
    (hfront : d.taken middle = d.taken s ++ front) (h : Took d middle b out) :
    Took d s (front ++ b) out := by
  cases h with
  | all taken => exact .all (by rw [taken, hfront, List.append_assoc])
  | part split short taken =>
      exact .part (by rw [split, List.append_assoc]) short
        (by rw [taken, hfront, List.append_assoc])

/-- **Writing octets.** A device may take them piece by piece: when it fails, what
it took before is the front of them. -/
theorem writeAll_took (s : σ) (b : Bytes) : Took d s b (d.writeAll s b) := by
  fun_induction d.writeAll s b with
  | case1 s => exact .all (List.append_nil _).symm
  | case2 s b hb s' reason hwrite => exact .nothing hb (d.taken_of_error hwrite)
  | case3 s b hb s' hwrite =>
      refine .nothing hb ?_
      rw [(d.taken_of_ok hwrite).2, List.take_zero, List.append_nil]
  | case4 s b hb s' n hwrite ih =>
      have htook := ih.behind (d.taken_of_ok hwrite).2
      rwa [List.take_append_drop] at htook

/-- Fields are written one after the other, and a failure in one leaves the rest
out. -/
theorem writeFields_took (s : σ) (fields : List Bytes) :
    Took d s fields.flatten (d.writeFields s fields) := by
  induction fields generalizing s with
  | nil => exact .all (List.append_nil _).symm
  | cons b rest ih =>
      have hfirst := writeAll_took (d := d) s b
      rw [writeFields, List.flatten_cons]
      generalize d.writeAll s b = out at hfirst
      cases hfirst with
      | all taken => exact (ih _).behind taken
      | part split short taken =>
          exact .part (by rw [split, List.append_assoc]) (by simp [short]) taken

/-- **A record is written, or a true part of it.** -/
theorem writeRecord_took {r : Record} (fits : r.body.length ≤ maxBodyLength) (s : σ) :
    Took d s r.encode (d.writeRecord s r) := by
  rw [writeRecord, if_neg (Nat.not_lt.mpr fits)]
  exact writeFields_took s r.fields

/-- Of a record whose body is too large, nothing is written. -/
theorem writeRecord_of_tooLarge {r : Record} (large : maxBodyLength < r.body.length) (s : σ) :
    d.writeRecord s r = (s, .error (.bodyTooLarge r.body.length)) := by
  rw [writeRecord, if_pos large]

end Device

/-! ### Reading up to a cut -/

namespace Source

variable {s : Source} {r : Record} {records : List Record}

/-- Octets that are too few for a head are an error. -/
theorem Steady.reads_head (h : s.Steady) (octets : s.octets ≠ [])
    (cut : s.octets.length < headLength) :
    s.Reads ([], some (.truncated headLength s.octets.length)) := by
  obtain ⟨left, hfill, hsteady, hleft⟩ := h.fill headLength
  rw [List.take_of_length_le (Nat.le_of_lt cut)] at hfill
  rw [List.drop_of_length_le (Nat.le_of_lt cut)] at hleft
  have hread : Head.ofBytes? s.octets = none := by
    cases hread : Head.ofBytes? s.octets with
    | none => rfl
    | some head => exact absurd (Head.length_of_ofBytes? hread) (Nat.ne_of_lt cut)
  have hnext : s.next = (some (.error (.truncated headLength s.octets.length)), left) := by
    simp [next, hfill, octets, hread]
  exact .error hnext (hsteady.reads_nothing hleft)

/-- So are octets that are too few for the body that a head tells. -/
theorem Steady.reads_body (h : s.Steady) (fits : r.body.length ≤ maxBodyLength)
    {head part : Bytes} (octets : s.octets = head ++ part)
    (hread : Head.ofBytes? head = some r.head) (cut : part.length < r.body.length) :
    s.Reads ([], some (.truncated r.body.length part.length)) := by
  obtain ⟨behind, hsteady, hbehind, hnext⟩ := h.next_eq octets hread
  obtain ⟨left, hleft, hrest, hnextBody⟩ := hsteady.nextBody_eq fits
  rw [hbehind, if_pos cut] at hnextBody
  rw [hbehind, List.drop_of_length_le (Nat.le_of_lt cut)] at hrest
  rw [hnextBody] at hnext
  exact .error hnext (hleft.reads_nothing hrest)

/-- **A part of a record** is an error that tells how much of what is there, unless
nothing is. -/
theorem Steady.reads_part (h : s.Steady) (fits : r.body.length ≤ maxBodyLength) {back : Bytes}
    (split : r.encode = s.octets ++ back) (short : back ≠ []) (records : List Record) :
    s.Reads (cutAfter s.octets.length (r :: records)) := by
  rw [cutAfter_of_lt (Record.length_part_lt split short)]
  by_cases hnone : s.octets = []
  · simpa [hnone] using h.reads_nothing hnone
  rw [if_neg (by simpa using hnone), Record.cutError]
  by_cases hcut : s.octets.length < headLength
  · rw [if_pos hcut]
    exact h.reads_head hnone hcut
  · -- the head is there, and what is behind it is a part of the body
    rw [if_neg hcut]
    have hread : Head.ofBytes? (r.head.stamp ++ Bytes.be32 0) = some r.head :=
      Head.ofBytes?_eq_some_iff.mpr ⟨_, rfl, rfl⟩
    have hhead := Head.length_of_ofBytes? hread
    have hfront : r.head.stamp ++ Bytes.be32 0 <+: r.encode := ⟨r.body, r.encode_eq.symm⟩
    obtain ⟨part, hpart⟩ :=
      List.prefix_of_prefix_length_le hfront ⟨back, split.symm⟩ (by omega)
    have hbody : r.body = part ++ back := by
      rw [r.encode_eq, ← hpart, List.append_assoc _ part] at split
      exact List.append_cancel_left split
    have hgot : s.octets.length - headLength = part.length := by
      rw [← hpart, List.length_append, hhead, Nat.add_sub_cancel_left]
    rw [hgot]
    refine h.reads_body fits hpart.symm hread ?_
    rw [hbody, List.length_append]
    exact Nat.lt_add_of_pos_right (List.length_pos_iff.mpr short)

/-- **Up to the cut** a capture is read as it was written. -/
theorem Steady.reads_cut (h : s.Steady) (fits : ∀ r ∈ records, r.body.length ≤ maxBodyLength)
    (cut : s.octets <+: records.flatMap Record.encode) :
    s.Reads (cutAfter s.octets.length records) := by
  induction records generalizing s with
  | nil =>
      have hnone : s.octets = [] := List.prefix_nil.mp cut
      simpa [hnone, cutAfter] using h.reads_nothing hnone
  | cons r records ih =>
      obtain ⟨hr, hrest⟩ := List.forall_mem_cons.mp fits
      rw [List.flatMap_cons] at cut
      rcases Nat.lt_or_ge s.octets.length r.encode.length with hpart | hwhole
      · -- the cut is in this record
        obtain ⟨back, hback⟩ :=
          List.prefix_of_prefix_length_le cut (List.prefix_append _ _) (Nat.le_of_lt hpart)
        refine h.reads_part hr hback.symm ?_ records
        rintro rfl
        rw [← hback, List.append_nil] at hpart
        exact Nat.lt_irrefl _ hpart
      · obtain ⟨rest, hoctets⟩ :=
          List.prefix_of_prefix_length_le (List.prefix_append _ _) cut hwhole
        rw [← hoctets, List.prefix_append_right_inj] at cut
        rw [← hoctets, List.length_append, r.length_encode, cutAfter_add]
        refine h.reads_record hr hoctets.symm fun left hsteady hleft => ?_
        subst hleft
        exact ih hsteady hrest cut

/-- What is read in front of a cut does not depend on what stood behind it, whatever the
octets are. -/
theorem Steady.readAll_prefix {whole : Source} (h : s.Steady) (hwhole : whole.Steady)
    (cut : s.octets <+: whole.octets) : s.readAll.1 <+: whole.readAll.1 := by
  fun_induction readAll s generalizing whole with
  | case1 s left hnext => exact List.nil_prefix
  | case2 s e left hnext => exact List.nil_prefix
  | case3 s r left hnext records failure hrest ih =>
      obtain ⟨fits, reserved, hreserved, octets⟩ := next_eq_ok hnext
      obtain ⟨more, hmore⟩ := cut
      have octets' := hmore.symm
      rw [octets, List.append_assoc] at octets'
      obtain ⟨left', hnext', hsteady', hleft'⟩ := hwhole.next_record fits hreserved octets'
      obtain ⟨_, hagain, hsteady, -⟩ := h.next_record fits hreserved octets
      obtain rfl := (Prod.mk.inj (hnext.symm.trans hagain)).2
      have hrecords := ih hsteady hsteady' ⟨more, hleft'.symm⟩
      rw [hrest] at hrecords
      rw [readAll_of_ok hnext']
      exact (List.prefix_cons_inj r).mpr hrecords

end Source

/-- **A writer that fails** has accepted the records that lie completely in what its
device took, and what the device took is read up to there. -/
theorem Device.writeRecords_reached {σ : Type} (d : Device σ) (s : σ) (records : List Record) :
    let written := d.writeRecords s records
    ∃ reached, d.taken written.state = d.taken s ++ reached ∧
      reached <+: records.flatMap Record.encode ∧
      written.accepted = (cutAfter reached.length records).1 ∧
      (written.failure = none → written.accepted = records) ∧
      ∀ source : Source, source.Steady → source.octets = reached →
        source.Reads (cutAfter reached.length records) := by
  induction records generalizing s with
  | nil =>
      exact ⟨[], (List.append_nil _).symm, List.nil_prefix, rfl, fun _ => rfl,
        fun source steady octets => steady.reads_nothing octets⟩
  | cons r records ih =>
      simp only [writeRecords, List.flatMap_cons]
      rcases Nat.lt_or_ge maxBodyLength r.body.length with large | fits
      · -- nothing is written
        rw [writeRecord_of_tooLarge large]
        refine ⟨[], (List.append_nil _).symm, List.nil_prefix, ?_⟩
        rw [List.length_nil, cutAfter_zero]
        exact ⟨rfl, by simp, fun source steady octets => steady.reads_nothing octets⟩
      have htook := writeRecord_took (d := d) fits s
      generalize d.writeRecord s r = out at htook
      cases htook with
      | all taken =>
          rename_i s'
          obtain ⟨reached, hstate, hreached, haccepted, hdone, hreads⟩ := ih s'
          refine ⟨r.encode ++ reached, ?_, ?_, ?_, ?_, fun source steady octets => ?_⟩
          · rw [hstate, taken, List.append_assoc]
          · exact (List.prefix_append_right_inj _).mpr hreached
          · rw [List.length_append, r.length_encode, cutAfter_add]
            exact congrArg (r :: ·) haccepted
          · exact fun hnone => congrArg (r :: ·) (hdone hnone)
          · rw [List.length_append, r.length_encode, cutAfter_add]
            exact steady.reads_record fits octets fun left steady octets =>
              hreads left steady octets
      | part split short taken =>
          rename_i s' e front back
          refine ⟨front, taken, ?_, ?_, by simp, fun source steady octets => ?_⟩
          · rw [split, List.append_assoc]
            exact List.prefix_append _ _
          · rw [cutAfter_of_lt (Record.length_part_lt split short)]
          · subst octets
            exact steady.reads_part fits split short records

end Capture

namespace Replay

/-- Units that were handed out stay handed out, whatever records come behind. -/
theorem addRecords_units_prefix (r : Replay) {xs ys : List Record} (h : xs <+: ys) :
    (r.addRecords xs).units <+: (r.addRecords ys).units := by
  obtain ⟨more, rfl⟩ := h
  induction xs generalizing r with
  | nil => exact List.nil_prefix
  | cons x xs ih =>
      cases hfirst : (r.addRecord x).result with
      | error e => simp [addRecords, hfirst]
      | ok next =>
          rw [List.cons_append, (addRecords_cons hfirst xs).2.1, (addRecords_cons hfirst _).2.1]
          exact (List.prefix_append_right_inj _).mpr (ih next)

/-- **What a replay hands out** in front of a cut it hands out of the whole, too. -/
theorem run_units_prefix (policy : Policy) {short whole : Source} (hshort : short.Steady)
    (hwhole : whole.Steady) (cut : short.octets <+: whole.octets) :
    (run policy short).units <+: (run policy whole).units := by
  rw [run_units, run_units]
  exact addRecords_units_prefix _ (hshort.readAll_prefix hwhole cut)

end Replay

namespace Capture

/-- **A capture cut short is read up to the cut.**  Whatever a device does, the records
accepted by a writer that stops at its first failure are those that lie completely in
what the device took of them, and exactly these are read from there.  Any first octets of
a capture are read likewise: behind the records that are complete there is a clean end if
the cut is between records, and an error otherwise that tells the octets there are of the
head or of the body.  A record whose body is too large is refused with nothing written.
And the units that a replay hands out of first octets, whatever these are, are the first
ones that it hands out of the whole. -/
theorem capture_cut_short :
    (∀ {σ : Type} (d : Device σ) (s : σ) (records : List Record),
      let written := d.writeRecords s records
      ∃ reached, d.taken written.state = d.taken s ++ reached ∧
        reached <+: records.flatMap Record.encode ∧
        written.accepted = (cutAfter reached.length records).1 ∧
        (written.failure = none → written.accepted = records) ∧
        ∀ source : Source, source.Steady → source.octets = reached →
          source.Reads (cutAfter reached.length records)) ∧
    (∀ records : List Record, (∀ r ∈ records, r.body.length ≤ maxBodyLength) →
      ∀ source : Source, source.Steady → source.octets <+: records.flatMap Record.encode →
        source.Reads (cutAfter source.octets.length records)) ∧
    (∀ {σ : Type} (d : Device σ) (s : σ) (r : Record), maxBodyLength < r.body.length →
      d.writeRecord s r = (s, .error (.bodyTooLarge r.body.length))) ∧
    ∀ (policy : Policy) (short whole : Source), short.Steady → whole.Steady →
      short.octets <+: whole.octets →
      (Replay.run policy short).units <+: (Replay.run policy whole).units :=
  ⟨Device.writeRecords_reached, fun _ fits _ steady cut => steady.reads_cut fits cut,
    fun _ s _ large => Device.writeRecord_of_tooLarge large s,
    fun policy _ _ short whole cut => Replay.run_units_prefix policy short whole cut⟩

/-- A device with room for a number of octets, of which it takes three at once at most. -/
def Device.disk (room : Nat) : Device Bytes where
  taken := id
  write s b :=
    if room ≤ s.length then (s, .error "no space left")
    else
      let n := min 3 (min b.length (room - s.length))
      (s ++ b.take n, .ok n)
  taken_of_ok := by
    intro s s' b n h
    split at h
    · simp at h
    · obtain ⟨rfl, hn⟩ := Prod.mk.inj h
      obtain rfl := Except.ok.inj hn
      exact ⟨by omega, rfl⟩
  taken_of_error := by
    intro s s' b reason h
    split at h
    · exact (Prod.mk.inj h).1.symm
    · simp at h

/-- A disk gets full in the body of a record, and a capture is cut in a head. -/
theorem capture_cut_short_in_body_and_head :
    let packet (seq : SeqNum) := (Rtp.Packet.simple 96 true seq 9000 1 [0x41]).raw
    let sdp : Record := ⟨.sdp, 0, Utf8.encode "m=video 0 RTP/AVP 96\na=rtpmap:96 H264/90000"⟩
    let records := [sdp, ⟨.rtp, 1, packet 0⟩, ⟨.rtp, 2, packet 1⟩]
    let large : Record := ⟨.rtp, 3, List.replicate (maxBodyLength + 1) 0⟩
    let full := (Device.disk 133).writeRecords [] records
    let whole := Source.ofBytes (records.flatMap Record.encode)
    let short := Source.ofBytes ((records.flatMap Record.encode).take 113)
    full.accepted = [sdp, ⟨.rtp, 1, packet 0⟩] ∧ full.failure = some (.device "no space left") ∧
      (Source.ofBytes full.state).Reads (full.accepted, some (.truncated 13 5)) ∧
      short.Reads ([sdp, ⟨.rtp, 1, packet 0⟩], some (.truncated headLength 9)) ∧
      (Device.disk 0).writeRecord [] large = ([], .error (.bodyTooLarge (maxBodyLength + 1))) ∧
      (Replay.run {} short).units.length = 1 ∧ (Replay.run {} whole).units.length = 2 ∧
      (Replay.run {} short).units <+: (Replay.run {} whole).units := by
  intro packet sdp records large full whole short
  obtain ⟨hwritten, hcut, hlarge, hreplay⟩ := capture_cut_short
  have hsteady : short.Steady ∧ whole.Steady ∧ (Source.ofBytes full.state).Steady := by
    decide +kernel
  obtain ⟨hshort, hwhole, hfull⟩ := hsteady
  refine ⟨by decide +kernel, by decide +kernel, ?_, ?_, ?_, by decide +kernel, by decide +kernel,
    hreplay {} short whole hshort hwhole (by decide +kernel)⟩
  · obtain ⟨reached, htaken, -, haccepted, -, hreads⟩ := hwritten (Device.disk 133) [] records
    obtain rfl : full.state = reached := htaken
    have hreads := hreads _ hfull (by decide +kernel)
    have hcut : (cutAfter full.state.length records).2 = some (.truncated 13 5) := by
      decide +kernel
    rwa [← Prod.eta (cutAfter full.state.length records), ← haccepted, hcut] at hreads
  · have hreads := hcut records (by decide +kernel) short hshort (by decide +kernel)
    have hcut : cutAfter short.octets.length records =
        ([sdp, ⟨.rtp, 1, packet 0⟩], some (.truncated headLength 9)) := by
      decide +kernel
    rwa [hcut] at hreads
  · have hlength : large.body.length = maxBodyLength + 1 := List.length_replicate
    rw [hlarge (Device.disk 0) [] large (by rw [hlength]; exact Nat.lt_succ_self _), hlength]

end Capture

end RtpReassembly
