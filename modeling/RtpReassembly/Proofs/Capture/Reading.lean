import RtpReassembly.Capture.Source
import RtpReassembly.Capture.Device
import RtpReassembly.Proofs.Records
import Mathlib.Data.List.Basic

/-!
# Reading back a capture

A source may deliver its octets in pieces of any size and may interrupt any read;
as long as no piece is empty and it does not fail, only its octets can be seen in
what is read.  And the octets of a record tell the record, so that a reader stands
where the next record starts whenever it has read one.

* `Steady`, `Steady.fill`: a source that delivers, and what is read of it at once;
* `next_eq_ok`, `Steady.next_record`: a record is read exactly where it was written,
  whatever its reserved octets are;
* `Reads` says what a source gives altogether;
* `capture_survives` is the main statement.
-/

namespace RtpReassembly

/-- A long word is written as its two halves. -/
theorem Bytes.be64_word64 (high low : UInt32) :
    Bytes.be64 (Bytes.word64 high low) = Bytes.be32 high ++ Bytes.be32 low := by
  have hhigh := high.toNat_lt
  have hlow := low.toNat_lt
  have hword : (Bytes.word64 high low).toNat = high.toNat * 0x100000000 + low.toNat := by
    rw [Bytes.word64, UInt64.toNat_ofNat']
    omega
  have hhigh' : UInt32.ofNat ((Bytes.word64 high low).toNat / 0x100000000) = high := by
    apply UInt32.toNat_inj.mp
    rw [hword, UInt32.toNat_ofNat']
    omega
  have hlow' : UInt32.ofNat (Bytes.word64 high low).toNat = low := by
    apply UInt32.toNat_inj.mp
    rw [hword, UInt32.toNat_ofNat']
    omega
  rw [Bytes.be64, hhigh', hlow']

namespace Capture

/-! ### Heads -/

/-- A number means the kind that is written with it. -/
theorem Kind.ofNumber?_eq_some_iff {n : UInt32} {kind : Kind} :
    Kind.ofNumber? n = some kind ↔ n = kind.number := by
  unfold ofNumber?
  constructor
  · intro h
    split at h
    · simp_all [number, ← Option.some.inj h]
    · split at h
      · simp_all [number, ← Option.some.inj h]
      · split at h
        · simp_all [number, ← Option.some.inj h]
        · simp at h
  · rintro rfl
    cases kind <;> rfl

namespace Head

/-- What a head says, in front of its four reserved octets. -/
def stamp (h : Head) : Bytes :=
  Bytes.be32 h.version ++ Bytes.be32 h.kind ++ Bytes.be32 h.length ++ Bytes.be64 h.captureMs

/-- A head is read exactly where it was written. -/
theorem ofBytes?_eq_some_iff {b : Bytes} {h : Head} :
    ofBytes? b = some h ↔ ∃ reserved, reserved.length = 4 ∧ b = h.stamp ++ reserved := by
  constructor
  · intro hread
    unfold ofBytes? at hread
    split at hread
    · rename_i m₀ m₁ m₂ m₃ r₀ r₁ r₂ r₃
      obtain rfl := Option.some.inj hread
      exact ⟨[r₀, r₁, r₂, r₃], rfl, by simp [stamp, Bytes.be32_word32, Bytes.be64_word64]⟩
    · simp at hread
  · rintro ⟨reserved, hlength, rfl⟩
    obtain ⟨r₀, r₁, r₂, r₃, rfl⟩ := List.length_eq_four.mp hlength
    simp only [stamp, Bytes.be32, Bytes.be64, List.cons_append, List.nil_append, ofBytes?,
      Bytes.word32_be32, Bytes.word64_be64]

@[simp] theorem length_stamp (h : Head) : h.stamp.length = 20 := by
  simp [stamp, Bytes.be32, Bytes.be64]

/-- A head is read of twenty-four octets and no other number of them. -/
theorem length_of_ofBytes? {b : Bytes} {h : Head} (hread : ofBytes? b = some h) :
    b.length = headLength := by
  obtain ⟨reserved, hlength, rfl⟩ := ofBytes?_eq_some_iff.mp hread
  rw [List.length_append, length_stamp, hlength]
  rfl

/-- **A head is accepted** exactly with the version of this format, the number of
a kind, and a body that is not too long. -/
theorem check_eq_ok_iff {h : Head} {kind : Kind} :
    h.check = .ok kind ↔
      h.version = Capture.version ∧ h.kind = kind.number ∧ h.length.toNat ≤ maxBodyLength := by
  unfold check
  split
  · rename_i hversion
    simp [hversion]
  · rename_i hversion
    rw [← Kind.ofNumber?_eq_some_iff]
    cases Kind.ofNumber? h.kind with
    | none => simp
    | some found =>
        simp only [Decidable.not_not.mp hversion, true_and, Option.some.injEq, ← Nat.not_lt]
        split <;> simp_all

end Head

namespace Record

/-- What stands in a record's head. -/
def head (r : Record) : Head :=
  { version, kind := r.kind.number, length := UInt32.ofNat r.body.length, captureMs := r.captureMs }

/-- Octets of a record. -/
def length (r : Record) : Nat :=
  headLength + r.body.length

/-- A record is its head, four octets in reserve, and its body. -/
theorem encode_eq (r : Record) : r.encode = r.head.stamp ++ Bytes.be32 0 ++ r.body := by
  simp [encode, fields, head, Head.stamp]

@[simp] theorem length_encode (r : Record) : r.encode.length = r.length := by
  simp [encode_eq, length, headLength, Bytes.be32]
  omega

variable {r : Record} (fits : r.body.length ≤ maxBodyLength)

include fits

/-- The head says how long the body is, since no body is longer than the word can
tell. -/
theorem head_length : r.head.length.toNat = r.body.length :=
  UInt32.toNat_ofNat_of_lt (Nat.lt_of_le_of_lt fits (by decide))

/-- The head of every record is accepted. -/
theorem head_check : r.head.check = .ok r.kind :=
  Head.check_eq_ok_iff.mpr ⟨rfl, rfl, (head_length fits).symm ▸ fits⟩

end Record

/-! ### Sources -/

namespace Source

/-- A source that delivers: no piece is empty, and it does not fail.  Pieces may be of
any size, and reads may be interrupted. -/
structure Steady (s : Source) : Prop where
  stops : s.ending = .stops
  pieces : .piece [] ∉ s.deliveries

/-- A steady source neither fails nor says too early that it is at its end. -/
theorem steady_iff {s : Source} : s.Steady ↔ s.ending = .stops ∧ .piece [] ∉ s.deliveries :=
  ⟨fun h => ⟨h.stops, h.pieces⟩, fun ⟨stops, pieces⟩ => ⟨stops, pieces⟩⟩

instance (s : Source) : Decidable s.Steady :=
  decidable_of_iff _ steady_iff.symm

theorem fillFrom_zero (ending : Ending) (deliveries : List Delivery) :
    fillFrom ending 0 deliveries = ⟨[], none, ⟨deliveries, ending⟩⟩ := by
  rcases deliveries with _ | ⟨_ | _, rest⟩ <;> simp [fillFrom]

/-- A piece that is not enough is taken as a whole. -/
theorem fillFrom_piece_of_lt {n : Nat} {b : Bytes} (hb : b ≠ []) (h : b.length < n)
    (ending : Ending) (rest : List Delivery) :
    fillFrom ending n (.piece b :: rest) =
      { fillFrom ending (n - b.length) rest with
        octets := b ++ (fillFrom ending (n - b.length) rest).octets } := by
  have hn : n ≠ 0 := Nat.ne_of_gt (Nat.lt_of_le_of_lt (Nat.zero_le _) h)
  simp [fillFrom, hn, hb, Bytes.splitExact?_eq_none_iff.mpr h]

/-- Of a piece that is enough, the rest is given next, if there is any. -/
theorem fillFrom_piece_of_le {n : Nat} {b : Bytes} (hn : n ≠ 0) (h : n ≤ b.length)
    (ending : Ending) (rest : List Delivery) :
    fillFrom ending n (.piece b :: rest) = ⟨b.take n, none,
      ⟨if b.drop n = [] then rest else .piece (b.drop n) :: rest, ending⟩⟩ := by
  have hb : b ≠ [] := List.length_pos_iff.mp (Nat.lt_of_lt_of_le (Nat.pos_of_ne_zero hn) h)
  have hsplit : Bytes.splitExact? n b = some (b.take n, b.drop n) :=
    Bytes.splitExact?_eq_some_iff.mpr
      ⟨(List.take_append_drop n b).symm, List.length_take_of_le h⟩
  cases hback : b.drop n with
  | nil => simp [fillFrom, hn, hb, hsplit, hback]
  | cons o back => simp [fillFrom, hn, hb, hsplit, hback]

/-- **A source that delivers** fills up whatever is asked of it, as far as its
octets go, whether they come in one piece or in many and however often a read is
interrupted; and it stands behind them then. -/
theorem fillFrom_stops {deliveries : List Delivery} (pieces : .piece [] ∉ deliveries) (n : Nat) :
    ∃ rest, fillFrom .stops n deliveries =
        ⟨(octetsOf deliveries).take n, none, ⟨rest, .stops⟩⟩ ∧
      .piece [] ∉ rest ∧ octetsOf rest = (octetsOf deliveries).drop n := by
  induction deliveries generalizing n with
  | nil => exact ⟨[], by cases n <;> simp [fillFrom, octetsOf], pieces, by simp [octetsOf]⟩
  | cons d rest ih =>
      obtain ⟨hd, hrest⟩ := not_or.mp (fun h => pieces (List.mem_cons.mpr h))
      by_cases hn : n = 0
      · subst hn
        exact ⟨d :: rest, fillFrom_zero _ _, pieces, rfl⟩
      cases d with
      | interrupted =>
          obtain ⟨left, hfill, hleft⟩ := ih hrest n
          exact ⟨left, by simpa [fillFrom, hn, octetsOf] using hfill, hleft⟩
      | piece b =>
          have hb : b ≠ [] := fun h => hd (congrArg Delivery.piece h.symm)
          rw [octetsOf]
          rcases Nat.lt_or_ge b.length n with hshort | hlong
          · -- the piece is used up, and the rest is asked of those behind it
            obtain ⟨left, hfill, hpieces, hoctets⟩ := ih hrest (n - b.length)
            have hall := Nat.le_of_lt hshort
            refine ⟨left, ?_, hpieces, ?_⟩
            · rw [fillFrom_piece_of_lt hb hshort, hfill, List.take_append,
                List.take_of_length_le hall]
            · rw [hoctets, List.drop_append, List.drop_of_length_le hall, List.nil_append]
          · rw [fillFrom_piece_of_le hn hlong, List.take_append_of_le_length hlong,
              List.drop_append_of_le_length hlong]
            split
            · rename_i hnone
              exact ⟨rest, rfl, hrest, by rw [hnone, List.nil_append]⟩
            · rename_i hback
              exact ⟨_, rfl, by simpa [hrest, eq_comm] using hback, rfl⟩

/-- **Only the octets can be seen** in what is read at once. -/
theorem Steady.fill {s : Source} (h : s.Steady) (n : Nat) :
    ∃ left, s.fill n = ⟨s.octets.take n, none, left⟩ ∧ left.Steady ∧
      left.octets = s.octets.drop n := by
  obtain ⟨rest, hfill, hpieces, hoctets⟩ := fillFrom_stops h.pieces n
  exact ⟨⟨rest, .stops⟩, by rw [Source.fill, h.stops, hfill]; rfl, ⟨rfl, hpieces⟩, hoctets⟩

/-- No source fills up more than was asked, even one that fails. -/
theorem length_fillFrom_le (ending : Ending) (n : Nat) (deliveries : List Delivery) :
    (fillFrom ending n deliveries).octets.length ≤ n := by
  induction deliveries generalizing n with
  | nil => exact Nat.zero_le n
  | cons d rest ih =>
      by_cases hn : n = 0
      · simp [hn, fillFrom_zero]
      cases d with
      | interrupted => simpa [fillFrom, hn] using ih n
      | piece b =>
          by_cases hb : b = []
          · simp [fillFrom, hn, hb]
          rcases Nat.lt_or_ge b.length n with hshort | hlong
          · have hmore := ih (n - b.length)
            rw [fillFrom_piece_of_lt hb hshort, List.length_append]
            omega
          · rw [fillFrom_piece_of_le hn hlong]
            exact List.length_take_le n b

theorem length_fill_le (n : Nat) (s : Source) : (s.fill n).octets.length ≤ n :=
  length_fillFrom_le s.ending n s.deliveries

/-- A body that is read belongs to its head. -/
theorem nextBody_eq_ok {h : Head} {s left : Source} {r : Record}
    (hbody : nextBody h s = (.ok r, left)) :
    h = r.head ∧ r.body.length ≤ maxBodyLength ∧ s.octets = r.body ++ left.octets := by
  unfold nextBody at hbody
  split at hbody
  · simp at hbody
  · rename_i kind hcheck
    obtain ⟨hversion, hkind, hbound⟩ := Head.check_eq_ok_iff.mp hcheck
    dsimp only at hbody
    split at hbody
    · simp at hbody
    · split at hbody
      · simp at hbody
      · obtain ⟨hr, rfl⟩ := Prod.mk.inj hbody
        obtain rfl := Except.ok.inj hr
        have hatMost := length_fill_le h.length.toNat s
        have hlength : (s.fill h.length.toNat).octets.length = h.length.toNat := by omega
        refine ⟨?_, Nat.le_trans (Nat.le_of_eq hlength) hbound, (octets_fill h.length.toNat s).symm⟩
        obtain ⟨version, kindNumber, length, captureMs⟩ := h
        simp only at hversion hkind hlength
        simp [Record.head, hversion, hkind, hlength]

/-- **A record that is read** stands in front of what is left, whatever the source does. -/
theorem next_eq_ok {s left : Source} {r : Record} (h : s.next = (some (.ok r), left)) :
    r.body.length ≤ maxBodyLength ∧ ∃ reserved, reserved.length = 4 ∧
      s.octets = r.head.stamp ++ reserved ++ r.body ++ left.octets := by
  unfold next at h
  dsimp only at h
  split at h
  · simp at h
  · split at h
    · simp at h
    · split at h
      · simp at h
      · rename_i head hhead
        obtain ⟨hresult, hleft⟩ := Prod.mk.inj h
        obtain ⟨rfl, fits, hbody⟩ :=
          nextBody_eq_ok (Prod.ext (Option.some.inj hresult) hleft)
        obtain ⟨reserved, hreserved, hfront⟩ := Head.ofBytes?_eq_some_iff.mp hhead
        refine ⟨fits, reserved, hreserved, ?_⟩
        rw [← octets_fill headLength s, hfront, hbody, List.append_assoc, List.append_assoc,
          List.append_assoc]

/-- A head that is there is read, and then its body. -/
theorem Steady.next_eq {s : Source} (h : s.Steady) {head : Head} {front rest : Bytes}
    (octets : s.octets = front ++ rest) (hfront : Head.ofBytes? front = some head) :
    ∃ left : Source, left.Steady ∧ left.octets = rest ∧
      s.next = (some (nextBody head left).1, (nextBody head left).2) := by
  have hlength := Head.length_of_ofBytes? hfront
  obtain ⟨left, hfill, hsteady, hleft⟩ := h.fill headLength
  have htake : s.octets.take headLength = front := by rw [octets, ← hlength, List.take_left]
  have hne : front.isEmpty = false := by
    rw [List.isEmpty_eq_false_iff_exists_mem, ← List.length_pos_iff_exists_mem, hlength]
    decide
  refine ⟨left, hsteady, by rw [hleft, octets, ← hlength, List.drop_left], ?_⟩
  simp [next, hfill, htake, hne, hfront]

/-- A body is read that is there, and one that is cut off is noticed. -/
theorem Steady.nextBody_eq {s : Source} (h : s.Steady) {r : Record}
    (fits : r.body.length ≤ maxBodyLength) :
    ∃ left : Source, left.Steady ∧ left.octets = s.octets.drop r.body.length ∧
      nextBody r.head s =
        (if s.octets.length < r.body.length then
            .error (.truncated r.body.length s.octets.length)
          else .ok { r with body := s.octets.take r.body.length }, left) := by
  obtain ⟨left, hfill, hsteady, hleft⟩ := h.fill r.body.length
  refine ⟨left, hsteady, hleft, ?_⟩
  simp only [nextBody, Record.head_check fits, Record.head_length fits, hfill, List.length_take]
  by_cases hcut : s.octets.length < r.body.length
  · rw [if_pos hcut, if_pos (by omega), Nat.min_eq_right (Nat.le_of_lt hcut)]
  · rw [if_neg hcut, if_neg (by omega)]
    rfl

/-- **A record that is there is read**, and what stands behind it is left. -/
theorem Steady.next_record {s : Source} (h : s.Steady) {r : Record} {reserved rest : Bytes}
    (fits : r.body.length ≤ maxBodyLength) (hreserved : reserved.length = 4)
    (octets : s.octets = r.head.stamp ++ reserved ++ r.body ++ rest) :
    ∃ left : Source, s.next = (some (.ok r), left) ∧ left.Steady ∧ left.octets = rest := by
  have hhead : Head.ofBytes? (r.head.stamp ++ reserved) = some r.head :=
    Head.ofBytes?_eq_some_iff.mpr ⟨reserved, hreserved, rfl⟩
  obtain ⟨behind, hsteady, hoctets, hnext⟩ := h.next_eq (octets.trans (List.append_assoc _ _ _)) hhead
  obtain ⟨left, hleft, hrest, hbody⟩ := hsteady.nextBody_eq fits
  have hlong : ¬ behind.octets.length < r.body.length := by
    rw [hoctets, List.length_append]
    omega
  rw [if_neg hlong, hoctets, List.take_left] at hbody
  refine ⟨left, by rw [hnext, hbody], hleft, ?_⟩
  rw [hrest, hoctets, List.drop_left]

/-- A source that has given everything is at its end. -/
theorem Steady.next_end {s : Source} (h : s.Steady) (octets : s.octets = []) :
    ∃ left : Source, s.next = (none, left) := by
  obtain ⟨left, hfill, -, -⟩ := h.fill headLength
  exact ⟨left, by simp [next, hfill, octets]⟩

/-! ### Everything that is read -/

variable {s left : Source} {r : Record} {e : CaptureError} {records : List Record}
  {failure : Option CaptureError}

theorem readAll_of_end (h : s.next = (none, left)) : s.readAll = ([], none) := by
  rw [readAll]
  split <;> simp_all

theorem readAll_of_error (h : s.next = (some (.error e), left)) : s.readAll = ([], some e) := by
  rw [readAll]
  split <;> simp_all

theorem readAll_of_ok (h : s.next = (some (.ok r), left)) :
    s.readAll = (r :: left.readAll.1, left.readAll.2) := by
  rw [readAll]
  split <;> simp_all

/-- `Reads s found`: a source gives the records of `found`, one after the other, then
the error, if there is one, and then it is at a clean end. -/
structure Reads (s : Source) (found : List Record × Option CaptureError) : Prop where
  all : s.readAll = found
  results : ∀ limit, s.results limit =
    (found.1.map Except.ok ++ (found.2.map Except.error).toList).take limit

/-- A source at a clean end stays there. -/
theorem Reads.nothing (h : s.next = (none, left)) : s.Reads ([], none) where
  all := readAll_of_end h
  results limit := by cases limit <;> simp [Source.results, h]

/-- A source may end with an error, once. -/
theorem Reads.error (h : s.next = (some (.error e), left)) (hleft : left.Reads ([], none)) :
    s.Reads ([], some e) where
  all := readAll_of_error h
  results limit := by
    cases limit with
    | zero => rfl
    | succ limit => simp [Source.results, h, hleft.results limit]

/-- A source may give one record before others. -/
theorem Reads.record (h : s.next = (some (.ok r), left)) (hleft : left.Reads (records, failure)) :
    s.Reads (r :: records, failure) where
  all := by rw [readAll_of_ok h, hleft.all]
  results limit := by
    cases limit with
    | zero => rfl
    | succ limit => simp [Source.results, h, hleft.results limit]

/-- A record that is there is read, and then what stands behind it. -/
theorem Steady.reads_record (h : s.Steady) (fits : r.body.length ≤ maxBodyLength) {rest : Bytes}
    (octets : s.octets = r.encode ++ rest)
    (behind : ∀ left : Source, left.Steady → left.octets = rest → left.Reads (records, failure)) :
    s.Reads (r :: records, failure) := by
  rw [Record.encode_eq] at octets
  obtain ⟨left, hnext, hsteady, hleft⟩ := h.next_record fits rfl octets
  exact .record hnext (behind left hsteady hleft)

/-- A source that has given everything gives nothing. -/
theorem Steady.reads_nothing (h : s.Steady) (octets : s.octets = []) : s.Reads ([], none) := by
  obtain ⟨left, hnext⟩ := h.next_end octets
  exact .nothing hnext

/-- **What was written is read.** -/
theorem Steady.reads_encode (h : s.Steady) (fits : ∀ r ∈ records, r.body.length ≤ maxBodyLength)
    (octets : s.octets = records.flatMap Record.encode) : s.Reads (records, none) := by
  induction records generalizing s with
  | nil => exact h.reads_nothing octets
  | cons r records ih =>
      obtain ⟨hr, hrest⟩ := List.forall_mem_cons.mp fits
      rw [List.flatMap_cons] at octets
      exact h.reads_record hr octets fun _ steady left => ih steady hrest left

end Source

/-! ### Writing -/

/-- A target without a limit takes every field. -/
theorem Target.writeFields_of_unlimited (b : Bytes) (fields : List Bytes) :
    writeFields { written := b } fields = ({ written := b ++ fields.flatten }, .ok ()) := by
  induction fields generalizing b with
  | nil => simp [writeFields]
  | cons field rest ih =>
      have hwrite : write { written := b } field = .ok { written := b ++ field } := by
        unfold write
        split
        · rename_i hempty
          simp [List.isEmpty_iff.mp hempty]
        · rfl
      rw [writeFields, hwrite]
      simp only
      rw [ih, List.flatten_cons, List.append_assoc]

/-- A target without a limit takes a record as a whole. -/
theorem Target.writeRecord_of_unlimited {r : Record} (fits : r.body.length ≤ maxBodyLength)
    (b : Bytes) : writeRecord { written := b } r = ({ written := b ++ r.encode }, .ok ()) := by
  rw [writeRecord, if_neg (Nat.not_lt.mpr fits), writeFields_of_unlimited]
  rfl

/-- A target without a limit takes any number of records, one behind the other. -/
theorem Target.writeRecords_of_unlimited {records : List Record}
    (fits : ∀ r ∈ records, r.body.length ≤ maxBodyLength) (b : Bytes) :
    device.writeRecords { written := b } records =
      ⟨{ written := b ++ records.flatMap Record.encode }, records, none⟩ := by
  induction records generalizing b with
  | nil => simp [Device.writeRecords]
  | cons r records ih =>
      obtain ⟨hr, hrest⟩ := List.forall_mem_cons.mp fits
      rw [Device.writeRecords, writeRecord_eq, writeRecord_of_unlimited hr]
      simp only
      rw [ih hrest, List.flatMap_cons, List.append_assoc]

/-- **A capture survives writing and reading.**  Records whose bodies are not too large
are all written, and from whatever pieces their octets come, with any interruptions in
between, exactly these records are read, in order, and then there is a clean end.
Conversely, if a record is read from any source in any state, what was taken off the
source is what is written for the record, up to the four reserved octets of its head. -/
theorem capture_survives :
    (∀ records : List Record, (∀ r ∈ records, r.body.length ≤ maxBodyLength) →
      let dump := records.flatMap Record.encode
      Target.device.writeRecords {} records = ⟨{ written := dump }, records, none⟩ ∧
        ∀ source : Source, source.Steady → source.octets = dump →
          source.Reads (records, none)) ∧
    ∀ (source left : Source) (r : Record), source.next = (some (.ok r), left) →
      ∃ said reserved, said.length = 20 ∧ reserved.length = 4 ∧
        source.octets = said ++ reserved ++ r.body ++ left.octets ∧
        ∀ b, Target.writeRecord { written := b } r =
          ({ written := b ++ (said ++ [0, 0, 0, 0] ++ r.body) }, .ok ()) := by
  constructor
  · intro records fits
    exact ⟨Target.writeRecords_of_unlimited fits [],
      fun source steady octets => steady.reads_encode fits octets⟩
  · intro source left r hnext
    obtain ⟨fits, reserved, hreserved, octets⟩ := Source.next_eq_ok hnext
    refine ⟨r.head.stamp, reserved, r.head.length_stamp, hreserved, octets, fun b => ?_⟩
    rw [Target.writeRecord_of_unlimited fits, Record.encode_eq]
    rfl

/-- Octets come one by one, and each read is interrupted before it gives one; and a head
has reserved octets that are not zero. -/
theorem capture_survives_octet_by_octet :
    let records : List Record :=
      [⟨.fileHeader, 0x0102030405060708, []⟩, ⟨.rtp, 2, [0xAA, 0xBB]⟩, ⟨.sdp, 3, []⟩]
    let source : Source :=
      { deliveries := (records.flatMap Record.encode).flatMap fun o =>
          [.interrupted, .piece [o]] }
    let marked := Source.ofBytes
      ([0, 0, 0, 1, 0, 0, 0, 3, 0, 0, 0, 1, 0, 0, 0, 0, 0, 0, 0, 5] ++ [1, 2, 3, 4] ++ [0xCC, 0xDD])
    source.deliveries.length = 148 ∧ source.Reads (records, none) ∧
      ∃ said reserved, said.length = 20 ∧ reserved.length = 4 ∧
        marked.octets = said ++ reserved ++ [0xCC] ++ [0xDD] ∧
        ∀ b, Target.writeRecord { written := b } ⟨.rtp, 5, [0xCC]⟩ =
          ({ written := b ++ (said ++ [0, 0, 0, 0] ++ [0xCC]) }, .ok ()) := by
  intro records source marked
  obtain ⟨hwritten, hread⟩ := capture_survives
  exact ⟨by decide +kernel,
    (hwritten records (by decide)).2 source (by decide +kernel) (by decide +kernel),
    hread marked (.ofBytes [0xDD]) ⟨.rtp, 5, [0xCC]⟩ rfl⟩

end Capture

end RtpReassembly
