import RtpReassembly.Replay
import RtpReassembly.Proofs.Delivery
import RtpReassembly.Proofs.Tables

/-!
# Routing the records of a capture

A replay has any number of legs in one table, and takes in one record after the
other.  Each record goes to one leg at most, so between two session descriptions
the table as a whole becomes what its legs become one by one.

* `Effect` has one constructor for each thing that comes of a record, and
  `addRecord_effect` says that nothing else does;
* `addRecord_description_iff`, `get?_legsFor`: the legs that a description sets up;
* `handed` keeps the units of a replay beside the records at which they are handed
  out, and `unitsOf` picks those of one payload type;
* `Effect.passed` and `Effect.units_eq` are about one record without a description,
  and `addRecords_stretch` is about a stretch of them.
-/

namespace RtpReassembly

open Capture

namespace Capture

/-- The payload type of a datagram, if it has a header. -/
def Record.payloadType? (x : Record) : Option UInt8 :=
  match x.kind, Rtp.Header.read x.body with
  | .rtp, .ok (header, _) => some header.payloadType
  | _, _ => none

/-- The datagrams of a payload type among records, in order. -/
def datagramsOf (pt : UInt8) (records : List Record) : List Bytes :=
  (records.filter (·.payloadType? = some pt)).map Record.body

theorem datagramsOf_cons (pt : UInt8) (x : Record) (xs : List Record) :
    datagramsOf pt (x :: xs) =
      (if x.payloadType? = some pt then [x.body] else []) ++ datagramsOf pt xs := by
  by_cases h : x.payloadType? = some pt <;> simp [datagramsOf, h]

/-- The description that a record holds, if it can be read. -/
def Record.description? (x : Record) : Option Sdp.Description :=
  match x.kind, Sdp.Description.read (Utf8.decodeLossy x.body) with
  | .sdp, .ok d => some d
  | _, _ => none

/-- A record with a description is one of that kind, whose text can be read. -/
theorem Record.read_of_description? {x : Record} {d : Sdp.Description}
    (h : x.description? = some d) :
    x.kind = .sdp ∧ Sdp.Description.read (Utf8.decodeLossy x.body) = .ok d := by
  obtain ⟨kind, captureMs, body⟩ := x
  cases hread : Sdp.Description.read (Utf8.decodeLossy body) <;> cases kind <;>
    simp_all [Record.description?]

end Capture

namespace Receiver

/-- The leg after datagrams. -/
def submitAll (r : Receiver) (bodies : List Bytes) : Receiver :=
  (r.run (bodies.map .submit)).1

/-- The units that datagrams bring out of a leg. -/
def unitsFor (r : Receiver) (bodies : List Bytes) : List AccessUnit :=
  (r.run (bodies.map .submit)).2.flatMap Reaction.units

@[simp] theorem submitAll_nil (r : Receiver) : r.submitAll [] = r := rfl

@[simp] theorem unitsFor_nil (r : Receiver) : r.unitsFor [] = [] := rfl

theorem submitAll_cons (r : Receiver) (body : Bytes) (bodies : List Bytes) :
    r.submitAll (body :: bodies) = (r.submit body).1.submitAll bodies := rfl

theorem unitsFor_cons (r : Receiver) (body : Bytes) (bodies : List Bytes) :
    r.unitsFor (body :: bodies) = (r.submit body).2.units ++ (r.submit body).1.unitsFor bodies :=
  rfl

/-- A datagram that is refused leaves the leg as it is. -/
theorem submit_of_refused {r : Receiver} {body : Bytes} {e : SubmitError}
    (h : r.accept body = .error e) : r.submit body = (r, { result := .error e }) := by
  simp [submit, h]

end Receiver

/-- A leg that plays, for a stream of a description. -/
def Sdp.VideoStream.leg (policy : Policy) (s : Sdp.VideoStream) : Receiver :=
  { payloadType := some s.payloadType
    ssrc := none
    reassembler := { format := .ofClockRate s.codec s.clockRate, policy }
    gate := { stage := .playing } }

namespace Replay

/-- The table after legs of streams were put into it. -/
def legsFor (policy : Policy) (t : Table UInt8 Receiver) :
    List Sdp.VideoStream → Table UInt8 Receiver
  | [] => t
  | s :: streams => legsFor policy (t.put s.payloadType (s.leg policy)) streams

/-- There is one leg for a payload type, however often a description names it. -/
theorem nodup_legsFor {policy : Policy} {t : Table UInt8 Receiver} (h : t.keys.Nodup)
    (streams : List Sdp.VideoStream) : (legsFor policy t streams).keys.Nodup := by
  induction streams generalizing t with
  | nil => exact h
  | cons s streams ih => exact ih (Table.nodup_keys_put h _ _)

/-- A payload type has the leg of the last stream with it. -/
theorem get?_legsFor (policy : Policy) (t : Table UInt8 Receiver) (pt : UInt8)
    (streams : List Sdp.VideoStream) :
    (legsFor policy t streams).get? pt =
      (((streams.filter (·.payloadType = pt)).getLast?).map (·.leg policy)).or (t.get? pt) := by
  induction streams generalizing t with
  | nil => rfl
  | cons s streams ih =>
      rw [legsFor, ih, Table.get?_put]
      by_cases hpt : s.payloadType = pt
      · rw [List.filter_cons_of_pos (by simpa using hpt), List.getLast?_cons]
        cases (streams.filter (·.payloadType = pt)).getLast? <;> simp [hpt]
      · rw [List.filter_cons_of_neg (by simpa using hpt)]
        simp [hpt]

/-- A leg can be opened for any clock that tells milliseconds. -/
theorem openLeg_eq (policy : Policy) (s : Sdp.VideoStream) :
    (1000 ≤ s.clockRate ∧ ∃ log, openLeg policy s = .ok (s.leg policy, log)) ∨
      (¬ 1000 ≤ s.clockRate ∧ ∃ e, openLeg policy s = .error e) := by
  by_cases hclock : 1000 ≤ s.clockRate
  · exact .inl ⟨hclock, _, by
      simp only [openLeg, Receiver.create, Reassembler.create_eq_ok hclock]
      rfl⟩
  · refine .inr ⟨hclock, ⟨s.clockRate⟩, ?_⟩
    have hslow : s.clockRate < 1000 := UInt32.not_le.mp hclock
    simp [openLeg, Receiver.create, Reassembler.create, hslow]

/-- **What a description sets up.** -/
theorem openLegs_eq_ok_iff {r r' : Replay} {streams : List Sdp.VideoStream} :
    (r.openLegs streams).2 = .ok r' ↔
      (∀ s ∈ streams, 1000 ≤ s.clockRate) ∧
        r' = { r with legs := legsFor r.policy r.legs streams } := by
  induction streams generalizing r with
  | nil => simp [openLegs, legsFor, eq_comm]
  | cons s streams ih =>
      rcases openLeg_eq r.policy s with ⟨hclock, log, hopen⟩ | ⟨hclock, e, hopen⟩
      · simp only [openLegs, hopen, ih, List.forall_mem_cons, hclock, true_and, legsFor]
      · simp [openLegs, hopen, hclock]

/-- The replay after a record was counted. -/
def noted (r : Replay) (x : Record) : Replay :=
  { r with summary := { r.summary with
      records := r.summary.records + 1
      rtpRecords := r.summary.rtpRecords + if x.kind = .rtp then 1 else 0 } }

/-- The counters of the legs that ended and of those that go on. -/
def total (r : Replay) : Tally :=
  r.summary.tally + Tally.sum (r.legs.map (·.2.tally))

/-- **What comes of a description.** -/
theorem addDescription_eq_ok_iff {r r' : Replay} {body : Bytes} :
    (r.addDescription body).2 = .ok r' ↔
      ∃ d, Sdp.Description.read (Utf8.decodeLossy body) = .ok d ∧
        (∀ s ∈ d.videoStreams, 1000 ≤ s.clockRate) ∧
        r' = { r with
          legs := legsFor r.policy [] d.videoStreams
          unsupported := d.unsupportedStreams.map (·.payloadType)
          summary := { r.summary with tally := r.total } } := by
  unfold addDescription
  cases Sdp.Description.read (Utf8.decodeLossy body) with
  | error e => simp
  | ok d =>
      have hopened : ∀ r', (r.closeLegs.1.openLegs d.videoStreams).2 = .ok r' ↔ _ :=
        fun r' => openLegs_eq_ok_iff
      dsimp only
      generalize r.closeLegs.1.openLegs d.videoStreams = opened at hopened ⊢
      obtain ⟨log, result⟩ := opened
      cases result with
      | error e =>
          have hslow : ¬ ∀ s ∈ d.videoStreams, 1000 ≤ s.clockRate :=
            fun clocks => by simpa using (hopened _).mpr ⟨clocks, rfl⟩
          simp [hslow]
      | ok next =>
          obtain ⟨clocks, rfl⟩ := (hopened next).mp rfl
          simp only [Except.ok.injEq, exists_eq_left', eq_comm (b := r')]
          exact ⟨fun h => ⟨clocks, h⟩, And.right⟩

/-- The replay behind a record with a description: the legs there are have ended, and
others are set up. -/
def renewed (r : Replay) (x : Record) (d : Sdp.Description) : Replay :=
  { r with
    legs := legsFor r.policy [] d.videoStreams
    unsupported := d.unsupportedStreams.map (·.payloadType)
    summary := { (r.noted x).summary with tally := r.total } }

/-- What comes of a record, what is logged apart. -/
inductive Effect (r : Replay) (x : Record) : Replay → List AccessUnit → Prop
  | mark (kind : x.kind = .fileHeader) : Effect r x (r.noted x) []
  /-- A datagram has no header. -/
  | headless (kind : x.kind = .rtp) (header : x.payloadType? = none) :
      Effect r x (r.noted x).countError []
  /-- There is no leg for a datagram. -/
  | unrouted {pt : UInt8} (kind : x.kind = .rtp) (header : x.payloadType? = some pt)
      (unknown : r.legs.get? pt = none) : Effect r x (r.noted x).countIgnored []
  /-- Its leg refuses a datagram. -/
  | refused {pt : UInt8} {leg : Receiver} {e : SubmitError} (kind : x.kind = .rtp)
      (header : x.payloadType? = some pt) (routed : r.legs.get? pt = some leg)
      (cause : leg.accept x.body = .error e) : Effect r x (r.noted x).countError []
  /-- Its leg accepts a datagram. -/
  | taken {pt : UInt8} {leg : Receiver} {packet : Rtp.Packet} (kind : x.kind = .rtp)
      (header : x.payloadType? = some pt) (routed : r.legs.get? pt = some leg)
      (accepted : leg.accept x.body = .ok packet) :
      Effect r x
        (emit { r.noted x with legs := r.legs.put pt (leg.submit x.body).1 }
          (leg.submit x.body).2.units)
        (leg.submit x.body).2.units
  | described {d : Sdp.Description} (kind : x.kind = .sdp) (reads : x.description? = some d)
      (clocks : ∀ s ∈ d.videoStreams, 1000 ≤ s.clockRate) : Effect r x (r.renewed x d) []

/-- **Nothing else comes of a record.** -/
theorem addRecord_effect {r r' : Replay} {x : Record} (h : (r.addRecord x).result = .ok r') :
    Effect r x r' (r.addRecord x).units := by
  obtain ⟨kind, captureMs, body⟩ := x
  cases kind with
  | fileHeader =>
      obtain rfl := Except.ok.inj h
      exact .mark rfl
  | sdp =>
      obtain ⟨d, hread, hclocks, rfl⟩ := addDescription_eq_ok_iff.mp h
      exact .described rfl (by simp [Record.description?, hread]) hclocks
  | rtp =>
      simp only [addRecord, addDatagram] at h ⊢
      cases hread : Rtp.Header.read body with
      | error e =>
          simp only [hread] at h ⊢
          obtain rfl := Except.ok.inj h
          exact .headless rfl (by simp [Record.payloadType?, hread])
      | ok parsed =>
          obtain ⟨header, rest⟩ := parsed
          have hheader : (Record.mk .rtp captureMs body).payloadType? =
              some header.payloadType := by simp [Record.payloadType?, hread]
          simp only [hread] at h ⊢
          cases hleg : r.legs.get? header.payloadType with
          | none =>
              simp only [hleg] at h ⊢
              obtain rfl := Except.ok.inj h
              exact .unrouted rfl hheader hleg
          | some leg =>
              cases haccept : leg.accept body with
              | error e =>
                  -- the leg is put back as it was
                  simp only [hleg, Receiver.submit_of_refused haccept,
                    Table.put_of_get? hleg] at h ⊢
                  obtain rfl := Except.ok.inj h
                  exact .refused rfl hheader hleg haccept
              | ok packet =>
                  have hresult : (leg.submit body).2.result = .ok () := by
                    simp [Receiver.submit, haccept]
                  simp only [hleg, hresult] at h ⊢
                  obtain rfl := Except.ok.inj h
                  exact .taken rfl hheader hleg haccept

/-- Only a description can end a replay. -/
theorem exists_addRecord (r : Replay) {x : Record} (h : x.kind ≠ .sdp) :
    ∃ r', (r.addRecord x).result = .ok r' := by
  obtain ⟨kind, captureMs, body⟩ := x
  cases kind with
  | fileHeader | rtp => exact ⟨_, rfl⟩
  | sdp => exact absurd rfl h

/-- **Only a description renews the legs**, and only if it can be read and its clocks
tell milliseconds. -/
theorem addRecord_description_iff {r r' : Replay} {x : Record} (kind : x.kind = .sdp) :
    (r.addRecord x).result = .ok r' ↔
      ∃ d, x.description? = some d ∧ (∀ s ∈ d.videoStreams, 1000 ≤ s.clockRate) ∧
        r' = r.renewed x d := by
  constructor
  · intro h
    have heffect := addRecord_effect h
    generalize (r.addRecord x).units = units at heffect
    cases heffect with
    | described _ reads clocks => exact ⟨_, reads, clocks, rfl⟩
    | mark kind' | headless kind' _ | unrouted kind' _ _ | refused kind' _ _ _
    | taken kind' _ _ _ => simp [kind] at kind'
  · rintro ⟨d, reads, clocks, rfl⟩
    obtain ⟨-, hread⟩ := Record.read_of_description? reads
    obtain ⟨kind', captureMs, body⟩ := x
    obtain rfl : kind' = .sdp := kind
    exact addDescription_eq_ok_iff.mpr ⟨d, hread, clocks, rfl⟩

/-! ### Stretches without a description -/

/-- A table after records without a description. -/
def legsAfter (t : Table UInt8 Receiver) (xs : List Record) : Table UInt8 Receiver :=
  t.mapValues fun pt leg => leg.submitAll (datagramsOf pt xs)

@[simp] theorem legsAfter_nil (t : Table UInt8 Receiver) : legsAfter t [] = t :=
  Table.mapValues_of_forall fun _ _ => rfl

@[simp] theorem legsAfter_empty (xs : List Record) : legsAfter [] xs = [] := rfl

/-- A leg that was put into a table takes the datagrams of its own payload type.
-/
theorem legsAfter_put (t : Table UInt8 Receiver) (pt : UInt8) (leg : Receiver)
    (xs : List Record) :
    legsAfter (t.put pt leg) xs =
      (legsAfter t xs).put pt (leg.submitAll (datagramsOf pt xs)) :=
  Table.mapValues_put _ t pt leg

/-- The legs pass over records one by one. -/
theorem legsAfter_cons (t : Table UInt8 Receiver) (x : Record) (xs : List Record) :
    legsAfter t (x :: xs) = legsAfter (legsAfter t [x]) xs := by
  simp only [legsAfter, Table.mapValues, List.map_map]
  refine List.map_congr_left fun e _ => ?_
  by_cases h : x.payloadType? = some e.1 <;>
    simp [h, datagramsOf, Receiver.submitAll_cons]

/-- A record changes nothing in a table without a leg for it. -/
theorem legsAfter_of_forall {t : Table UInt8 Receiver} {x : Record}
    (h : ∀ pt ∈ t.keys, x.payloadType? ≠ some pt) : legsAfter t [x] = t := by
  refine Table.mapValues_of_forall fun e he => ?_
  simp [datagramsOf, h e.1 (List.mem_map_of_mem he)]

/-- A record goes to its leg, and to no other. -/
theorem legsAfter_of_get? {t : Table UInt8 Receiver} {x : Record} {pt : UInt8} {leg : Receiver}
    (nodup : t.keys.Nodup) (header : x.payloadType? = some pt) (routed : t.get? pt = some leg) :
    legsAfter t [x] = t.put pt (leg.submit x.body).1 := by
  rw [legsAfter, Table.mapValues_of_get? nodup routed]
  · simp [datagramsOf, header, Receiver.submitAll_cons]
  · intro pt' leg' hne
    simp [datagramsOf, header, Ne.symm hne]

/-- Whether there is no leg for a datagram with a header. -/
def isUnrouted (t : Table UInt8 Receiver) (x : Record) : Bool :=
  x.payloadType?.any fun pt => (t.get? pt).isNone

/-- `Passed r xs r'`: a replay came from `r` to `r'` over records without a
description. -/
structure Passed (r : Replay) (xs : List Record) (r' : Replay) : Prop where
  policy : r'.policy = r.policy
  unsupported : r'.unsupported = r.unsupported
  legs : r'.legs = legsAfter r.legs xs
  records : r'.summary.records = r.summary.records + xs.length
  rtpRecords : r'.summary.rtpRecords = r.summary.rtpRecords + xs.countP (·.kind = .rtp)
  ignored : r'.summary.ignored = r.summary.ignored + xs.countP (isUnrouted r.legs)
  tally : r'.summary.tally = r.summary.tally
  sha256 : r'.summary.sha256 = r.summary.sha256

theorem Passed.nil (r : Replay) : Passed r [] r :=
  ⟨rfl, rfl, (legsAfter_nil _).symm, rfl, rfl, rfl, rfl, rfl⟩

/-- Records without a description neither add nor remove a leg. -/
theorem isUnrouted_legsAfter (t : Table UInt8 Receiver) (xs : List Record) :
    isUnrouted (legsAfter t xs) = isUnrouted t := by
  funext x
  simp [isUnrouted, legsAfter, Table.get?_mapValues]

/-- A replay passes over records one by one, each of its counters on its own. -/
theorem Passed.cons {r next r' : Replay} {x : Record} {xs : List Record}
    (first : Passed r [x] next) (rest : Passed next xs r') : Passed r (x :: xs) r' where
  policy := rest.policy.trans first.policy
  unsupported := rest.unsupported.trans first.unsupported
  legs := by rw [rest.legs, first.legs, ← legsAfter_cons]
  records := by
    rw [rest.records, first.records]
    simp only [List.length_cons, List.length_nil]
    omega
  rtpRecords := by
    rw [rest.rtpRecords, first.rtpRecords]
    simp only [List.countP_cons, List.countP_nil]
    omega
  ignored := by
    rw [rest.ignored, first.ignored, first.legs, isUnrouted_legsAfter]
    simp only [List.countP_cons, List.countP_nil]
    omega
  tally := rest.tally.trans first.tally
  sha256 := rest.sha256.trans first.sha256

/-- **One record** without a description. -/
theorem Effect.passed {r r' : Replay} {x : Record} {units : List AccessUnit}
    (h : Effect r x r' units) (plain : x.kind ≠ .sdp) (nodup : r.legs.keys.Nodup) :
    Passed r [x] r' := by
  cases h with
  | mark kind =>
      have hheader : x.payloadType? = none := by simp [Record.payloadType?, kind]
      constructor <;> simp [noted, kind, isUnrouted, hheader, legsAfter_of_forall]
  | headless kind header =>
      constructor <;>
        simp [noted, countError, kind, isUnrouted, header, legsAfter_of_forall]
  | unrouted kind header unknown =>
      have hnone : legsAfter r.legs [x] = r.legs := by
        refine legsAfter_of_forall fun pt' hpt' heq => ?_
        obtain rfl := Option.some.inj (header.symm.trans heq)
        exact Table.get?_eq_none_iff.mp unknown hpt'
      constructor <;> simp [noted, countIgnored, kind, isUnrouted, header, unknown, hnone]
  | refused kind header routed cause =>
      have hlegs := legsAfter_of_get? nodup header routed
      rw [Receiver.submit_of_refused cause, Table.put_of_get? routed] at hlegs
      constructor <;> simp [noted, countError, kind, isUnrouted, header, routed, hlegs]
  | taken kind header routed accepted =>
      have hlegs := legsAfter_of_get? nodup header routed
      constructor <;> simp [noted, emit, kind, isUnrouted, header, routed, hlegs]
  | described kind reads clocks => exact absurd kind plain

/-- Records beside the units that a replay hands out at each of them. -/
def handed (r : Replay) : List Record → List (Record × List AccessUnit)
  | [] => []
  | x :: xs =>
    (x, (r.addRecord x).units) ::
      match (r.addRecord x).result with
      | .error _ => []
      | .ok next => handed next xs

/-- The units handed out at datagrams of one payload type. -/
def unitsOf (pt : UInt8) (handed : List (Record × List AccessUnit)) : List AccessUnit :=
  (handed.filter (·.1.payloadType? = some pt)).flatMap Prod.snd

theorem unitsOf_cons (pt : UInt8) (x : Record) (units : List AccessUnit)
    (rest : List (Record × List AccessUnit)) :
    unitsOf pt ((x, units) :: rest) =
      (if x.payloadType? = some pt then units else []) ++ unitsOf pt rest := by
  by_cases h : x.payloadType? = some pt <;> simp [unitsOf, h]

@[simp] theorem unitsOf_append (pt : UInt8) (front back : List (Record × List AccessUnit)) :
    unitsOf pt (front ++ back) = unitsOf pt front ++ unitsOf pt back := by
  simp [unitsOf]

variable {r next r' : Replay} {x : Record} {xs : List Record}

/-- Records are replayed one by one, as long as each can be. -/
theorem addRecords_cons (h : (r.addRecord x).result = .ok next) (xs : List Record) :
    (r.addRecords (x :: xs)).result = (next.addRecords xs).result ∧
      (r.addRecords (x :: xs)).units = (r.addRecord x).units ++ (next.addRecords xs).units ∧
      r.handed (x :: xs) = (x, (r.addRecord x).units) :: next.handed xs := by
  simp [addRecords, handed, h]

/-- A replay that goes on to the end goes on at each record. -/
theorem exists_of_addRecords_cons (h : (r.addRecords (x :: xs)).result = .ok r') :
    ∃ next, (r.addRecord x).result = .ok next ∧ (next.addRecords xs).result = .ok r' := by
  cases hfirst : (r.addRecord x).result with
  | error e => simp [addRecords, hfirst] at h
  | ok next => exact ⟨next, rfl, by rwa [(addRecords_cons hfirst xs).1] at h⟩

/-- The policy is that of the replay for good, so that later legs have it too. -/
theorem Effect.policy_eq {units : List AccessUnit} (h : Effect r x r' units) :
    r'.policy = r.policy := by
  cases h <;> rfl

/-- The policy is the same after any number of records. -/
theorem addRecords_policy (h : (r.addRecords xs).result = .ok r') : r'.policy = r.policy := by
  induction xs generalizing r with
  | nil =>
      obtain rfl := Except.ok.inj h
      rfl
  | cons x xs ih =>
      obtain ⟨next, hfirst, hrest⟩ := exists_of_addRecords_cons h
      rw [ih hrest, (addRecord_effect hfirst).policy_eq]

/-- The units of a replay are those handed out at its records. -/
theorem addRecords_units (h : (r.addRecords xs).result = .ok r') :
    (r.addRecords xs).units = (r.handed xs).flatMap Prod.snd ∧
      (r.handed xs).map Prod.fst = xs := by
  induction xs generalizing r with
  | nil => exact ⟨rfl, rfl⟩
  | cons x xs ih =>
      obtain ⟨next, hfirst, hrest⟩ := exists_of_addRecords_cons h
      obtain ⟨hunits, hrecords⟩ := ih hrest
      obtain ⟨-, hunits', hhanded⟩ := addRecords_cons hfirst xs
      rw [hunits', hhanded, List.flatMap_cons, List.map_cons, hunits, hrecords]
      exact ⟨rfl, rfl⟩

/-- A replay takes in one part after the other. -/
theorem addRecords_append (h : (r.addRecords xs).result = .ok next) (ys : List Record) :
    (r.addRecords (xs ++ ys)).result = (next.addRecords ys).result ∧
      r.handed (xs ++ ys) = r.handed xs ++ next.handed ys := by
  induction xs generalizing r with
  | nil =>
      obtain rfl := Except.ok.inj h
      exact ⟨rfl, rfl⟩
  | cons x xs ih =>
      obtain ⟨middle, hfirst, hrest⟩ := exists_of_addRecords_cons h
      obtain ⟨hresult, hhanded⟩ := ih hrest
      obtain ⟨hresult', -, hhanded'⟩ := addRecords_cons hfirst (xs ++ ys)
      rw [List.cons_append, hresult', hresult, hhanded', hhanded,
        (addRecords_cons hfirst xs).2.2]
      exact ⟨rfl, rfl⟩

/-- A replay that goes on to the end comes to the end of each part. -/
theorem exists_of_addRecords_append {ys : List Record}
    (h : (r.addRecords (xs ++ ys)).result = .ok r') :
    ∃ next, (r.addRecords xs).result = .ok next ∧ (next.addRecords ys).result = .ok r' := by
  induction xs generalizing r with
  | nil => exact ⟨r, rfl, h⟩
  | cons x xs ih =>
      obtain ⟨middle, hfirst, hrest⟩ := exists_of_addRecords_cons h
      obtain ⟨next, hxs, hys⟩ := ih hrest
      exact ⟨next, by rw [(addRecords_cons hfirst xs).1, hxs], hys⟩

/-- What comes to a leg is what the leg by itself brings out. -/
theorem Effect.units_eq {units : List AccessUnit} {pt : UInt8} (h : Effect r x r' units)
    (header : x.payloadType? = some pt) :
    units = ((r.legs.get? pt).map (·.unitsFor [x.body])).getD [] := by
  have hkind : x.kind = .rtp := by
    cases hkind : x.kind <;> simp [Record.payloadType?, hkind] at header ⊢
  cases h with
  | mark kind => simp [hkind] at kind
  | headless _ none => simp [header] at none
  | unrouted _ header' unknown =>
      obtain rfl := Option.some.inj (header'.symm.trans header)
      simp [unknown]
  | refused _ header' routed cause =>
      obtain rfl := Option.some.inj (header'.symm.trans header)
      simp [routed, Receiver.unitsFor_cons, Receiver.submit_of_refused cause]
  | taken _ header' routed _ =>
      obtain rfl := Option.some.inj (header'.symm.trans header)
      simp [routed, Receiver.unitsFor_cons]
  | described kind _ _ => simp [hkind] at kind

/-- **A stretch without a description** is taken in to its end, and every leg
becomes what it becomes by itself. -/
theorem addRecords_stretch (plain : ∀ x ∈ xs, x.kind ≠ .sdp) (nodup : r.legs.keys.Nodup) :
    ∃ r', (r.addRecords xs).result = .ok r' ∧ Passed r xs r' ∧
      ∀ pt, unitsOf pt (r.handed xs) =
        ((r.legs.get? pt).map (·.unitsFor (datagramsOf pt xs))).getD [] := by
  induction xs generalizing r with
  | nil => exact ⟨r, rfl, .nil r, fun pt => by cases h : r.legs.get? pt <;> rfl⟩
  | cons x xs ih =>
      obtain ⟨hplain, hrest⟩ := List.forall_mem_cons.mp plain
      obtain ⟨next, hfirst⟩ := exists_addRecord r hplain
      have heffect := addRecord_effect hfirst
      have hpassed := heffect.passed hplain nodup
      obtain ⟨r', hresult, hpassed', hunits⟩ := ih hrest
        (by rwa [hpassed.legs, legsAfter, Table.keys_mapValues])
      obtain ⟨hresult', -, hhanded⟩ := addRecords_cons hfirst xs
      refine ⟨r', hresult'.trans hresult, hpassed.cons hpassed', fun pt => ?_⟩
      rw [hhanded, unitsOf_cons, hunits, hpassed.legs, legsAfter, Table.get?_mapValues,
        datagramsOf_cons]
      by_cases header : x.payloadType? = some pt
      · rw [heffect.units_eq header]
        cases r.legs.get? pt <;>
          simp [datagramsOf, header, Receiver.unitsFor_cons, Receiver.submitAll_cons]
      · cases r.legs.get? pt <;> simp [datagramsOf, header]

/-! ### The whole capture -/

/-- What a replay to the end comes to. -/
theorem run_eq_ok_iff {policy : Policy} {source : Source} {summary : Summary} :
    (run policy source).result = .ok summary ↔
      source.readAll.2 = none ∧
        ∃ r, (addRecords { policy } source.readAll.1).result = .ok r ∧
          summary =
            { r.summary with tally := r.total, sha256 := Hex.ofBytes r.fingerprint.finish } := by
  unfold run
  obtain ⟨records, failure⟩ := source.readAll
  cases failure <;> cases h : (addRecords { policy } records).result <;>
    simp [h, finish, closeLegs, total, eq_comm]

/-- The units of a run are those of the records that its source reads. -/
theorem run_units (policy : Policy) (source : Source) :
    (run policy source).units = (addRecords { policy } source.readAll.1).units := by
  unfold run
  obtain ⟨records, failure⟩ := source.readAll
  cases failure <;> cases hresult : (addRecords { policy } records).result <;> simp [hresult]

end Replay

end RtpReassembly
