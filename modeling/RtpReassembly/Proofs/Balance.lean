import RtpReassembly.Proofs.Routing
import Mathlib.Algebra.BigOperators.Group.List.Basic

/-!
# The balance of a replay

The numbers of a summary come from different places: the replay counts records,
datagrams without a header and datagrams without a leg; a leg refuses datagrams,
which the replay then counts; and a leg counts what it accepts, which the replay
adds up only when the leg ends.

* `Balanced`, `Effect.balanced`: what balances at each record, with the legs that
  go on included;
* `everyLeg` lists every leg that a capture ever sets up, as its datagrams leave
  it, and `total_addRecords` says that their counters are what is added up;
* `summary_balances` is the main statement.
-/

namespace RtpReassembly

open Capture

namespace Tally

theorem add_def (a b : Tally) : a + b = a.add b := rfl

instance : Zero Tally := ⟨{}⟩

instance : AddCommMonoid Tally where
  add_assoc a b c := by simp [add_def, add, Nat.add_assoc]
  zero_add a := by
    change add {} a = a
    simp [add]
  add_zero a := rfl
  add_comm a b := by simp [add_def, add, Nat.add_comm]
  nsmul := nsmulRec

/-- The counters of streams together do not depend on their order. -/
theorem sum_eq (ts : List Tally) : sum ts = ts.sum :=
  List.sum_eq_foldl.symm

@[simp] theorem packets_add (a b : Tally) : (a + b).packets = a.packets + b.packets := rfl

@[simp] theorem accessUnits_add (a b : Tally) :
    (a + b).accessUnits = a.accessUnits + b.accessUnits := rfl

end Tally

namespace Table

variable {κ α M : Type} [DecidableEq κ] [AddCommMonoid M] {t : Table κ α} {key : κ} {a : α}

/-- A sum over a table after one value was changed. -/
theorem sum_put (f : α → M) (h : t.get? key = some a) (b : α) :
    ((t.put key b).map (f ·.2)).sum + f a = (t.map (f ·.2)).sum + f b := by
  induction t with
  | nil => simp [get?] at h
  | cons e t ih =>
      by_cases hkey : e.1 = key
      · obtain rfl : e.2 = a := by simpa [get?, hkey] using h
        simp only [put, hkey, if_true, List.map_cons, List.sum_cons]
        ac_rfl
      · simp only [put, hkey, if_false, List.map_cons, List.sum_cons, add_assoc]
        rw [ih (by simpa [get?, hkey] using h)]

/-- A value put under a key, and the sum over keys of a kind. -/
theorem sum_filter_put (f : κ × α → M) (h : t.keys.Nodup) (p : κ → Bool) (key : κ) (a : α) :
    (((t.put key a).filter (p ·.1)).map f).sum =
      ((t.filter fun e => p e.1 && !(e.1 = key)).map f).sum + if p key then f (key, a) else 0 := by
  induction t with
  | nil => cases hp : p key <;> simp [put, hp]
  | cons e t ih =>
      obtain ⟨hnew, hrest⟩ := List.nodup_cons.mp h
      by_cases hkey : e.1 = key
      · have htail : t.filter (fun e => p e.1 && !(e.1 = key)) = t.filter (p ·.1) := by
          refine List.filter_congr fun e' he' => ?_
          have hne : e'.1 ≠ key := by
            rintro rfl
            exact hnew (hkey ▸ List.mem_map_of_mem he')
          simp [hne]
        cases hp : p key <;> simp [put, hkey, hp, htail, add_comm]
      · cases hp : p e.1 <;> simp [put, hkey, hp, ih hrest, add_assoc]

end Table

namespace Receiver

/-- A leg that is ready stays so over a datagram, and counts it with its units. -/
theorem submit_taken {r : Receiver} {raw : Bytes} {packet : Rtp.Packet}
    (accepted : r.accept raw = .ok packet) (ready : r.gate.isReady) :
    (r.submit raw).1.gate.isReady ∧
      (r.submit raw).1.tally.packets = r.tally.packets + 1 ∧
      (r.submit raw).1.tally.accessUnits =
        r.tally.accessUnits + (r.submit raw).2.units.length := by
  obtain ⟨hgate, hunits⟩ := deliver_eq (r.reassembler.feed packet).1
    (accept_eq_ok_iff.mp accepted).1 (r.reassembler.feed packet).2
  simp only [submit, accepted, hgate, hunits, Gate.isReady_pass, ready, if_true, tally, true_and]
  exact ⟨congrArg Tally.packets (Tally.recordAll_packets r.reassembler.tally _ _),
    Tally.recordAll_accessUnits _ _⟩

end Receiver

namespace Replay

variable {r r' : Replay} {x : Record} {xs : List Record} {units : List AccessUnit}

/-- What a description sets up are legs of its streams. -/
theorem mem_legsFor {policy : Policy} {t : Table UInt8 Receiver} {e : UInt8 × Receiver}
    {streams : List Sdp.VideoStream} (h : e ∈ legsFor policy t streams) :
    e ∈ t ∨ ∃ s : Sdp.VideoStream, e = (s.payloadType, s.leg policy) := by
  induction streams generalizing t with
  | nil => exact .inl h
  | cons s streams ih =>
      rcases ih h with h | h
      · rcases Table.mem_put h with rfl | h
        · exact .inr ⟨s, rfl⟩
        · exact .inl h
      · exact .inr h

/-- Legs that are set up have counted nothing. -/
theorem sum_tally_legsFor (policy : Policy) (streams : List Sdp.VideoStream) :
    ((legsFor policy [] streams).map (·.2.tally)).sum = 0 := by
  refine List.sum_eq_zero fun tally h => ?_
  obtain ⟨e, he, rfl⟩ := List.mem_map.mp h
  rcases mem_legsFor he with he | ⟨s, rfl⟩
  · simp at he
  · rfl

/-- The total is a sum over the legs in any order. -/
theorem total_eq (r : Replay) : r.total = r.summary.tally + (r.legs.map (·.2.tally)).sum := by
  rw [total, Tally.sum_eq]

/-- What balances at each record. -/
structure Balanced (r : Replay) : Prop where
  nodup : r.legs.keys.Nodup
  ready : ∀ e ∈ r.legs, e.2.gate.isReady
  /-- A datagram is counted in one of three ways. -/
  datagrams : r.summary.rtpRecords = r.summary.parseErrors + r.summary.ignored + r.total.packets
  /-- What legs give is handed out. -/
  units : r.summary.accessUnits = r.total.accessUnits

/-- A replay that has seen nothing balances. -/
theorem balanced_start (policy : Policy) : Balanced { policy } :=
  ⟨List.nodup_nil, by simp, rfl, rfl⟩

/-- **One record** keeps the balance, and counts itself and its units. -/
theorem Effect.balanced (h : Effect r x r' units) (hr : Balanced r) :
    Balanced r' ∧ r'.summary.records = r.summary.records + 1 ∧
      r'.summary.rtpRecords = r.summary.rtpRecords + (if x.kind = .rtp then 1 else 0) ∧
      r'.summary.accessUnits = r.summary.accessUnits + units.length := by
  obtain ⟨nodup, ready, datagrams, hunits⟩ := hr
  cases h with
  | mark kind =>
      refine ⟨⟨nodup, ready, ?_, hunits⟩, rfl, rfl, rfl⟩
      simpa only [total, noted, kind, reduceCtorEq, if_false, Nat.add_zero] using datagrams
  | headless kind _ | refused kind _ _ _ =>
      refine ⟨⟨nodup, ready, ?_, hunits⟩, rfl, rfl, rfl⟩
      simp only [total, noted, countError, kind, if_true] at datagrams ⊢
      omega
  | unrouted kind _ _ =>
      refine ⟨⟨nodup, ready, ?_, hunits⟩, rfl, rfl, rfl⟩
      simp only [total, noted, countIgnored, kind, if_true] at datagrams ⊢
      omega
  | @taken pt leg packet kind header routed accepted =>
      have hleg := ready _ (Table.mem_of_get? routed)
      obtain ⟨hready, hpackets, haccessUnits⟩ := Receiver.submit_taken accepted hleg
      -- the sum over the legs grows by what this leg counts
      have hsum := Table.sum_put Receiver.tally routed (leg.submit x.body).1
      have hsumPackets := congrArg Tally.packets hsum
      have hsumUnits := congrArg Tally.accessUnits hsum
      simp only [Tally.packets_add, Tally.accessUnits_add, total_eq]
        at hsumPackets hsumUnits datagrams hunits
      refine ⟨⟨Table.nodup_keys_put nodup _ _, ?_, ?_, ?_⟩, rfl, rfl, rfl⟩
      · intro e he
        rcases Table.mem_put he with rfl | he
        · exact hready
        · exact ready e he
      · simp only [total_eq, Tally.packets_add, emit, noted, kind, if_true]
        omega
      · simp only [total_eq, Tally.accessUnits_add, emit, noted]
        omega
  | described kind reads clocks =>
      refine ⟨⟨@nodup_legsFor r.policy [] List.nodup_nil _, ?_, ?_, ?_⟩, rfl, rfl, rfl⟩
      · intro e he
        rcases mem_legsFor he with he | ⟨s, rfl⟩
        · simp at he
        · rfl
      · simpa only [renewed, total_eq _, sum_tally_legsFor, add_zero, noted, kind, reduceCtorEq,
          if_false, Nat.add_zero] using datagrams
      · simpa only [renewed, total_eq _, sum_tally_legsFor, add_zero, noted] using hunits

/-- **Any number of records.** -/
theorem addRecords_balanced (h : (r.addRecords xs).result = .ok r') (hr : Balanced r) :
    Balanced r' ∧ r'.summary.records = r.summary.records + xs.length ∧
      r'.summary.rtpRecords = r.summary.rtpRecords + xs.countP (·.kind = .rtp) ∧
      r'.summary.accessUnits = r.summary.accessUnits + (r.addRecords xs).units.length := by
  induction xs generalizing r with
  | nil =>
      obtain rfl := Except.ok.inj h
      exact ⟨hr, rfl, rfl, rfl⟩
  | cons x xs ih =>
      obtain ⟨next, hfirst, hrest⟩ := exists_of_addRecords_cons h
      obtain ⟨hnext, hrecords, hrtp, hunits⟩ := (addRecord_effect hfirst).balanced hr
      obtain ⟨hr', hrecords', hrtp', hunits'⟩ := ih hrest hnext
      refine ⟨hr', ?_, ?_, ?_⟩
      · rw [hrecords', hrecords, List.length_cons]
        omega
      · rw [hrtp', hrtp, List.countP_cons]
        simp only [decide_eq_true_eq]
        omega
      · rw [hunits', hunits, (addRecords_cons hfirst xs).2.1, List.length_append]
        omega

/-! ### Every leg of a capture -/

/-- The legs of the streams of a description, each as the datagrams in the records
behind it leave it.  Of several streams with one payload type the last has them
all. -/
def legsOver (policy : Policy) (xs : List Record) : List Sdp.VideoStream → List Receiver
  | [] => []
  | s :: later =>
    (if later.any (·.payloadType = s.payloadType) then s.leg policy
      else (s.leg policy).submitAll (datagramsOf s.payloadType xs)) :: legsOver policy xs later

/-- Every leg that is set up in records, as it is left by the datagrams up to the
next description. -/
def everyLeg (policy : Policy) : List Record → List Receiver
  | [] => []
  | x :: xs =>
    legsOver policy (xs.takeWhile (·.kind ≠ .sdp))
      ((x.description?.map Sdp.Description.videoStreams).getD []) ++ everyLeg policy xs

/-- The counters of the legs in a table, after records, are those of every leg set
up, since a leg whose place another takes has counted nothing. -/
theorem sum_legsFor (policy : Policy) {t : Table UInt8 Receiver} (nodup : t.keys.Nodup)
    (xs : List Record) (streams : List Sdp.VideoStream) :
    ((legsAfter (legsFor policy t streams) xs).map (·.2.tally)).sum =
      (((legsAfter t xs).filter fun e => !streams.any (·.payloadType = e.1)).map
        (·.2.tally)).sum + ((legsOver policy xs streams).map Receiver.tally).sum := by
  induction streams generalizing t with
  | nil => simp [legsFor, legsOver]
  | cons s later ih =>
      have hnodup : (legsAfter t xs).keys.Nodup := by rwa [legsAfter, Table.keys_mapValues]
      have hfilter : (legsAfter t xs).filter
            (fun e => !later.any (·.payloadType = e.1) && !(e.1 = s.payloadType)) =
          (legsAfter t xs).filter (fun e => !(s :: later).any (·.payloadType = e.1)) := by
        refine List.filter_congr fun e _ => ?_
        by_cases hpt : s.payloadType = e.1
        · simp [hpt]
        · simp [hpt, Ne.symm hpt]
      have hput := Table.sum_filter_put (fun e => e.2.tally) hnodup
        (fun pt => !later.any (·.payloadType = pt)) s.payloadType
        ((s.leg policy).submitAll (datagramsOf s.payloadType xs))
      rw [hfilter, ← legsAfter_put] at hput
      rw [legsFor, ih (Table.nodup_keys_put nodup _ _), hput, add_assoc, legsOver, List.map_cons,
        List.sum_cons]
      have hfresh : (s.leg policy).tally = 0 := rfl
      cases later.any (·.payloadType = s.payloadType) <;> simp [hfresh]

/-- **Every leg counts.**  The counters of all legs, those that ended and those that
go on, are those of the legs there were and of every leg set up since. -/
theorem total_addRecords (h : (r.addRecords xs).result = .ok r') (nodup : r.legs.keys.Nodup) :
    r'.total = r.summary.tally +
      ((legsAfter r.legs (xs.takeWhile (·.kind ≠ .sdp))).map (·.2.tally)).sum +
      ((everyLeg r.policy xs).map Receiver.tally).sum := by
  induction xs generalizing r with
  | nil =>
      obtain rfl := Except.ok.inj h
      simp [total_eq, everyLeg]
  | cons x xs ih =>
      obtain ⟨next, hfirst, hrest⟩ := exists_of_addRecords_cons h
      by_cases hkind : x.kind = .sdp
      · obtain ⟨d, reads, -, rfl⟩ := (addRecord_description_iff hkind).mp hfirst
        have hsum := @sum_legsFor r.policy [] List.nodup_nil
          (xs.takeWhile (·.kind ≠ .sdp)) d.videoStreams
        have hstretch : (x :: xs).takeWhile (·.kind ≠ .sdp) = [] := by simp [hkind]
        rw [legsAfter_empty, List.filter_nil, List.map_nil, List.sum_nil, zero_add] at hsum
        rw [ih hrest (@nodup_legsFor r.policy [] List.nodup_nil _), hstretch]
        simp only [renewed, everyLeg, reads, Option.map_some, Option.getD_some, legsAfter_nil,
          total_eq, List.map_append, List.sum_append, add_assoc, hsum]
      · have hpassed := (addRecord_effect hfirst).passed hkind nodup
        have hnone : x.description? = none := by
          obtain ⟨kind, captureMs, body⟩ := x
          cases kind <;> simp_all [Record.description?]
        have hkeys : next.legs.keys.Nodup := by
          rwa [hpassed.legs, legsAfter, Table.keys_mapValues]
        rw [ih hrest hkeys, hpassed.legs, hpassed.tally, hpassed.policy, ← legsAfter_cons]
        simp [everyLeg, legsOver, hnone, hkind]

/-- Legs may end in any order. -/
theorem closeLegs_perm (r : Replay) {legs : Table UInt8 Receiver} (h : legs.Perm r.legs) :
    (closeLegs { r with legs }).1 = r.closeLegs.1 := by
  have hsum : total { r with legs } = r.total := by
    rw [total_eq, total_eq, (h.map (·.2.tally)).sum_eq]
  simp only [total] at hsum
  simp only [closeLegs, hsum]

/-- **The summary balances.**  Let a capture be replayed to its end.  Every record
is counted, and every datagram among them: those without a header and those that
a leg refused as errors, those of no leg as ignored, and the others by their leg.
The units counted are those counted by legs, and those handed out.  The counters
of legs are the sums over every leg that was ever set up, in whatever order they
are added; and the order in which legs end at a description, or in the end, does
not matter to anything but the log. -/
theorem summary_balances {policy : Policy} {source : Source} {summary : Summary}
    (replayed : (run policy source).result = .ok summary) :
    let records := source.readAll.1
    source.readAll.2 = none ∧
    summary.records = records.length ∧
    summary.rtpRecords = records.countP (·.kind = .rtp) ∧
    summary.rtpRecords = summary.parseErrors + summary.ignored + summary.tally.packets ∧
    summary.accessUnits = summary.tally.accessUnits ∧
    summary.accessUnits = (run policy source).units.length ∧
    (∀ legs : List Receiver, legs.Perm (everyLeg policy records) →
      summary.tally = Tally.sum (legs.map Receiver.tally)) ∧
    ∀ (r : Replay) (legs : Table UInt8 Receiver), legs.Perm r.legs →
      (closeLegs { r with legs }).1 = r.closeLegs.1 := by
  intro records
  obtain ⟨hread, r, hresult, rfl⟩ := run_eq_ok_iff.mp replayed
  obtain ⟨hbalanced, hrecords, hrtp, hunits⟩ :=
    addRecords_balanced hresult (balanced_start policy)
  simp only [Nat.zero_add] at hrecords hrtp hunits
  refine ⟨hread, hrecords, hrtp, hbalanced.datagrams, hbalanced.units, ?_, ?_,
    fun r _ => closeLegs_perm r⟩
  · rw [run_units]
    exact hunits
  · intro legs hlegs
    rw [Tally.sum_eq, (hlegs.map Receiver.tally).sum_eq, total_addRecords hresult List.nodup_nil]
    rw [legsAfter_empty, List.map_nil, List.sum_nil, add_zero]
    exact zero_add _

/-- A payload type is mapped twice, and a leg ends with a fragment that waits.  Among
the datagrams one comes too early, one has no header, one a foreign source, and two
a payload type without a leg. -/
def renegotiation : Source :=
  .ofBytes (List.flatMap Record.encode
    [⟨.fileHeader, 0, []⟩,
      ⟨.rtp, 1, (Rtp.Packet.simple 96 true 1 9000 1 [0x41]).raw⟩,
      ⟨.sdp, 2, Utf8.encode ("m=video 0 RTP/AVP 96 97 98\na=rtpmap:96 H265/90000\n" ++
        "a=rtpmap:96 H264/90000\na=rtpmap:97 H265/90000\na=rtpmap:98 VP8/90000")⟩,
      ⟨.rtp, 3, (Rtp.Packet.simple 96 true 1 9000 1 [0x41]).raw⟩,
      ⟨.rtp, 4, [0x80, 0x60]⟩,
      ⟨.rtp, 5, (Rtp.Packet.simple 96 true 2 9000 2 [0x41]).raw⟩,
      ⟨.rtp, 6, (Rtp.Packet.simple 97 false 5 9000 1 [0x62, 0x01, 0x93, 0xA0]).raw⟩,
      ⟨.rtp, 7, (Rtp.Packet.simple 98 true 1 9000 1 [0x10]).raw⟩,
      ⟨.sdp, 8, Utf8.encode "m=video 0 RTP/AVP 97\na=rtpmap:97 H265/90000"⟩,
      ⟨.rtp, 9, (Rtp.Packet.simple 97 true 6 9000 1 [0x62, 0x01, 0x53, 0xB0]).raw⟩,
      ⟨.rtp, 10, (Rtp.Packet.simple 96 true 2 9000 1 [0x41]).raw⟩])

/-- Of its eight datagrams one has no header and one a foreign source, three find
no leg, and the legs of both descriptions count the rest. -/
theorem summary_balances_renegotiated :
    ∃ summary, (run {} renegotiation).result = .ok summary ∧
      { summary with sha256 := "" } = ⟨11, 8, 1, 2, 3, ⟨3, 1, 0, 0, 0, 0, 0, 0⟩, ""⟩ ∧
      (everyLeg {} renegotiation.readAll.1).map (fun leg => (leg.codec, leg.tally.packets)) =
        [(.h265, 0), (.h264, 1), (.h265, 1), (.h265, 1)] ∧
      summary.tally = Tally.sum ((everyLeg {} renegotiation.readAll.1).map Receiver.tally) := by
  have hrun : ((run {} renegotiation).result.toOption.map fun s => { s with sha256 := "" }) =
      some ⟨11, 8, 1, 2, 3, ⟨3, 1, 0, 0, 0, 0, 0, 0⟩, ""⟩ := by decide +kernel
  cases hresult : (run {} renegotiation).result with
  | error e => simp [hresult, Except.toOption] at hrun
  | ok summary =>
      obtain ⟨-, -, -, -, -, -, hlegs, -⟩ := summary_balances hresult
      refine ⟨summary, rfl, ?_, by decide +kernel, hlegs _ (.refl _)⟩
      simpa [hresult, Except.toOption] using hrun

end Replay

end RtpReassembly
