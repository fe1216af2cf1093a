import RtpReassembly.Proofs.Checked.Assembly
import RtpReassembly.Proofs.RoundTrip

/-!
# Receiving with partial operations

A receiver is run here on the functions that read by offsets, from the datagram
to the end of the loops over the buffer.  The buffer itself is looked into by
index, and the packets behind a run are counted by a difference.  What is logged is
taken over as it is.

* `insertChecked_eq`: the scan from the tail stays inside of the buffer;
* `abandonRunChecked_eq`, `serveChecked_eq`, `settleChecked_eq`, `trimChecked_eq`:
  nor do the loops leave it, as long as all slots are classified;
* `feedChecked_eq`, `submitChecked_eq`: one packet, one datagram;
* `runChecked_eq` is the main statement, about calls in any order.
-/

namespace RtpReassembly

open Checked

namespace ReorderBuffer

/-- The place of a number among the first `i` packets of a buffer, looked for from
the last of them; `none` if it is met on the way. -/
def placeChecked (b : ReorderBuffer) (seq : SeqNum) : Nat → Checked (Option Nat)
  | 0 => return some 0
  | i + 1 => do
    let s ← b[i]?
    match SeqNum.order seq s.seq with
    | .eq => return none
    | .gt => return some (i + 1)
    | .lt => placeChecked b seq i

/-- Puts a packet into the buffer; `none` if its number is there already. -/
def insertChecked (b : ReorderBuffer) (s : Slot) : Checked (Option ReorderBuffer) := do
  match ← placeChecked b s.seq b.length with
  | none => return none
  | some i => return some ((← slice b 0 i) ++ s :: (← slice b i b.length))

/-- A scan from below the tail reads what is there, and says where a packet goes. -/
theorem placeChecked_eq {b : ReorderBuffer} (s : Slot) {i : Nat} (h : i ≤ b.length) :
    ∃ place, placeChecked b s.seq i = some place ∧ (∀ j ∈ place, j ≤ i) ∧
      insertFromTail? s (b.take i).reverse =
        place.map fun j => (b.take j ++ s :: (b.take i).drop j).reverse := by
  induction i with
  | zero => exact ⟨some 0, rfl, by simp, by simp [insertFromTail?]⟩
  | succ i ih =>
      obtain ⟨last, hlast⟩ : ∃ last, b[i]? = some last := ⟨_, List.getElem?_eq_getElem h⟩
      have htake : b.take (i + 1) = b.take i ++ [last] := by
        rw [List.take_add_one, hlast]
        rfl
      have hlength : (b.take i).length = i := List.length_take_of_le (by omega)
      cases horder : SeqNum.order s.seq last.seq with
      | eq => exact ⟨none, by simp [placeChecked, hlast, horder], by simp,
          by simp [insertFromTail?, horder, htake]⟩
      | gt => exact ⟨some (i + 1), by simp [placeChecked, hlast, horder], by simp,
          by simp [insertFromTail?, horder, htake]⟩
      | lt =>
          obtain ⟨place, hplace, hle, hinsert⟩ := ih (by omega)
          refine ⟨place, by simp [placeChecked, hlast, horder, hplace],
            fun j hj => Nat.le_succ_of_le (hle j hj), ?_⟩
          cases place with
          | none => simp_all [insertFromTail?]
          | some j =>
              have hj : j ≤ (b.take i).length := by
                rw [hlength]
                exact hle j rfl
              simp [insertFromTail?, horder, hinsert, htake, List.drop_append_of_le_length hj]

/-- **The scan of the buffer stays inside of it.** -/
theorem insertChecked_eq (b : ReorderBuffer) (s : Slot) :
    b.insertChecked s = some (b.insert? s) := by
  obtain ⟨place, hplace, hle, hinsert⟩ := placeChecked_eq s (Nat.le_refl b.length)
  rw [List.take_length] at hinsert
  cases place with
  | none => simp [insertChecked, insert?, hplace, hinsert]
  | some i =>
      have hi : i ≤ b.length := hle i rfl
      simp [insertChecked, insert?, hplace, hinsert, slice_eq (Nat.zero_le i) hi,
        slice_eq hi (Nat.le_refl _), List.take_of_length_le]

end ReorderBuffer

/-- A turn that moves shortens the buffer, and one that does not keeps it. -/
def Turn.Shrinks (b : ReorderBuffer) : Turn → Prop
  | .settled w _ => w.buffer = b
  | .moved w _ => w.buffer.length < b.length

namespace Window

/-- Gives up the run of `run` packets at the head. -/
def abandonRunChecked (fault : RunFault) (run : Nat) (b : ReorderBuffer) : Checked Turn := do
  let head ← b[0]?
  let last ← b[← sub run 1]?
  let next := b[run]?.map Slot.seq
  return .moved { buffer := b.drop run, consumed := some (consumedWithHole last.seq next) }
    [.runAbandoned fault head ((b.take run).drop 1) next]

/-- Serves the head of the buffer, before which no hole is waited for. -/
def serveChecked (p : Policy) (f : Format) (consumed : Option SeqNum) (head : Slot)
    (tail : List Slot) : Checked Turn :=
  if head.placement.isContinuation ∧ p.discardOrphans ∧
      (consumed.isSome ∨ p.isLost (tail.length + 1)) then
    let (others, behind) := orphansAfter head tail
    return .moved { buffer := behind, consumed := some (lastSeq head others) }
      [.orphansDiscarded head others]
  else do
    match ← assembleChecked f (head :: tail) with
    | .emitted unit used last =>
      return .moved { buffer := tail.drop (used - 1), consumed := some last }
        [.emitted unit head (tail.take (used - 1))]
    | .dropped cause last =>
      return .moved { buffer := tail, consumed := some last } [.dropped cause head]
    | .incomplete orphan =>
      return .settled { buffer := head :: tail, consumed } (orphan.toList.map .orphanWaits)
    | .gap run =>
      if p.isLost (← sub (tail.length + 1) run) then
        abandonRunChecked .sequenceGap run (head :: tail)
      else return .settled { buffer := head :: tail, consumed } []
    | .broken run => abandonRunChecked .unterminated run (head :: tail)

/-- One look at the head of the buffer. -/
def turnChecked (p : Policy) (f : Format) (w : Window) : Checked Turn :=
  match w.buffer with
  | [] => return .settled w []
  | head :: tail =>
    match passHole? p w.consumed head.seq (tail.length + 1) with
    | none => return .settled w []
    | some (consumed, events) => do
      match ← serveChecked p f consumed head tail with
      | .settled w more => return .settled w (events ++ more)
      | .moved w more => return .moved w (events ++ more)

variable {p : Policy} {f : Format}

/-- A run that is abandoned has at least its head, so the buffer gets shorter. -/
theorem abandonRunChecked_shrinks {fault : RunFault} {run : Nat} {b : ReorderBuffer} {t : Turn}
    (h : abandonRunChecked fault run b = some t) : Turn.Shrinks b t := by
  obtain ⟨head, hhead, h⟩ := Option.bind_eq_some_iff.mp h
  obtain ⟨i, hi, h⟩ := Option.bind_eq_some_iff.mp h
  obtain ⟨last, -, h⟩ := Option.bind_eq_some_iff.mp h
  obtain rfl := Option.some.inj h
  have hrun : 1 ≤ run := (Option.ite_none_right_eq_some.mp hi).1
  have hpos : 0 < b.length := (List.getElem?_eq_some_iff.mp hhead).1
  simp only [Turn.Shrinks, List.length_drop]
  omega

/-- A head that is served leaves the buffer shorter, unless it stays. -/
theorem serveChecked_shrinks {consumed : Option SeqNum} {head : Slot} {tail : List Slot}
    {t : Turn} (h : serveChecked p f consumed head tail = some t) :
    Turn.Shrinks (head :: tail) t := by
  unfold serveChecked at h
  split at h
  · obtain rfl := Option.some.inj h
    exact Nat.lt_succ_of_le (orphansAfter_length head tail)
  · obtain ⟨o, -, h⟩ := Option.bind_eq_some_iff.mp h
    cases o with
    | emitted unit used last =>
        obtain rfl := Option.some.inj h
        exact Nat.lt_succ_of_le (List.drop_sublist _ _).length_le
    | dropped cause last =>
        obtain rfl := Option.some.inj h
        exact Nat.lt_succ_self _
    | incomplete orphan =>
        obtain rfl := Option.some.inj h
        rfl
    | gap run =>
        obtain ⟨behind, -, h⟩ := Option.bind_eq_some_iff.mp h
        split at h
        · exact abandonRunChecked_shrinks h
        · obtain rfl := Option.some.inj h
          rfl
    | broken run => exact abandonRunChecked_shrinks h

/-- A turn that moves leaves a shorter buffer, and that is why the loop of checked
turns ends. -/
theorem turnChecked_shrinks {w : Window} {t : Turn} (h : turnChecked p f w = some t) :
    Turn.Shrinks w.buffer t := by
  unfold turnChecked at h
  split at h
  · obtain rfl := Option.some.inj h
    rfl
  · rename_i head tail hb
    split at h
    · obtain rfl := Option.some.inj h
      rfl
    · obtain ⟨served, hserved, h⟩ := Option.bind_eq_some_iff.mp h
      have hshrinks := serveChecked_shrinks hserved
      rw [← hb] at hshrinks
      cases served <;> obtain rfl := Option.some.inj h <;> exact hshrinks

/-- Looks at the head until nothing moves. -/
def settleChecked (p : Policy) (f : Format) (w : Window) : Checked (Window × List Event) :=
  match _h : turnChecked p f w with
  | none => none
  | some (.settled w' events) => return (w', events)
  | some (.moved w' events) => do
    let (w'', more) ← settleChecked p f w'
    return (w'', events ++ more)
termination_by w.buffer.length
decreasing_by exact turnChecked_shrinks _h

/-- No packet is added by settling. -/
theorem settleChecked_length {w : Window} {result : Window × List Event}
    (h : settleChecked p f w = some result) : result.1.buffer.length ≤ w.buffer.length := by
  fun_induction settleChecked p f w generalizing result with
  | case1 w hnone => simp at h
  | case2 w w' events hturn =>
      obtain rfl := Option.some.inj h
      exact Nat.le_of_eq (congrArg List.length (turnChecked_shrinks hturn))
  | case3 w w' events hturn ih =>
      obtain ⟨rest, hrest, h⟩ := Option.bind_eq_some_iff.mp h
      obtain rfl := Option.some.inj h
      exact (ih hrest).trans (Nat.le_of_lt (turnChecked_shrinks hturn))

/-- Evicts the oldest packets of a buffer over capacity, and lets go after each
whatever it held up. -/
def trimChecked (p : Policy) (f : Format) (w : Window) : Checked (Window × List Event) :=
  match _h : w.buffer with
  | [] => return (w, [])
  | head :: tail =>
    if p.capacity < tail.length + 1 then
      match _hs : settleChecked p f { buffer := tail, consumed := some head.seq } with
      | none => none
      | some (settled, events) => do
        let (w', more) ← trimChecked p f settled
        return (w', .evicted head :: events ++ more)
    else return (w, [])
termination_by w.buffer.length
decreasing_by
  have := settleChecked_length _hs
  rw [_h]
  exact Nat.lt_succ_of_le this

/-- Takes one packet in, and lets go whatever can go. -/
def feedChecked (p : Policy) (f : Format) (w : Window) (packet : Rtp.Packet) :
    Checked (Window × List Event) :=
  match w.staleAfter? packet.seq with
  | some consumed => return (w, [.stale packet.seq consumed])
  | none => do
    let placement ← Placement.ofBodyChecked f.codec packet.body
    match ← w.buffer.insertChecked { packet, placement } with
    | none => return (w, [.classified packet, .duplicate packet.seq])
    | some buffer =>
      let settled ← settleChecked p f { w with buffer }
      let trimmed ← trimChecked p f settled.1
      return (trimmed.1, .classified packet :: settled.2 ++ trimmed.2)

/-! ### The loops stay inside of the buffer -/

/-- A run in the buffer has a last packet. -/
theorem abandonRunChecked_eq {fault : RunFault} {run : Nat} {head : Slot} {tail : List Slot}
    (hpos : 1 ≤ run) (hrun : run ≤ tail.length + 1) :
    abandonRunChecked fault run (head :: tail) = some (abandonRun fault run head tail) := by
  obtain ⟨n, rfl⟩ : ∃ n, run = n + 1 := ⟨run - 1, by omega⟩
  obtain ⟨last, hlast⟩ : ∃ last, (head :: tail)[n]? = some last :=
    ⟨_, List.getElem?_eq_getElem (by simp only [List.length_cons]; omega)⟩
  have hseq : last.seq = lastSeq head (tail.take n) := by
    have hrow := getLast?_seqs head (tail.take n)
    rw [← List.take_succ_cons, List.getLast?_map, List.getLast?_take] at hrow
    simpa [hlast] using hrow
  simp [abandonRunChecked, abandonRun, sub_eq hpos, hlast, hseq, List.head?_drop]

/-- **Serving the head.** No run is longer than the buffer it stands in, and a
complete one consists of fragments that are long enough, since each was classified
by its body: so nothing that is indexed, sliced or subtracted is out of bounds. -/
theorem serveChecked_eq {consumed : Option SeqNum} {head : Slot} {tail : List Slot}
    (ticks : 0 < f.ticksPerMs) (classified : ∀ s ∈ head :: tail, s.Classified f.codec) :
    serveChecked p f consumed head tail = some (serve p f consumed head tail) := by
  have hassembled := assemble_assembled (f := f) head tail
  unfold serveChecked serve
  rw [assembleChecked_eq ticks classified]
  split
  · rfl
  · cases ho : assemble f (head :: tail) with
    | emitted unit used last => rfl
    | dropped cause last => rfl
    | incomplete orphan => rfl
    | gap run =>
        -- the run and the packet behind it are all in the buffer
        rw [ho] at hassembled
        cases hassembled with
        | @gap s middles behind _ _ =>
            have hrun : 1 + middles.length ≤ (middles ++ s :: behind).length + 1 := by
              simp only [List.length_append, List.length_cons]
              omega
            simp only [Option.bind_eq_bind, Option.bind_some, sub_eq hrun,
              abandonRunChecked_eq (Nat.le_add_right 1 _) hrun]
            split <;> rfl
    | broken run =>
        rw [ho] at hassembled
        cases hassembled with
        | @broken s middles behind _ _ _ =>
            refine abandonRunChecked_eq (Nat.le_add_right 1 _) ?_
            simp only [List.length_append, List.length_cons]
            omega

/-- A turn is defined, for a hole is passed over without an index. -/
theorem turnChecked_eq {w : Window} (ticks : 0 < f.ticksPerMs)
    (classified : ∀ s ∈ w.buffer, s.Classified f.codec) :
    turnChecked p f w = some (turn p f w) := by
  obtain ⟨buffer, consumed⟩ := w
  cases buffer with
  | nil => rfl
  | cons head tail =>
      simp only [turnChecked, turn]
      cases passHole? p consumed head.seq (tail.length + 1) with
      | none => rfl
      | some passed =>
          simp only [serveChecked_eq ticks classified, Option.bind_eq_bind, Option.bind_some]
          cases serve p f passed.1 head tail <;> rfl

/-- What stays in a buffer was there. -/
theorem Moves.classified {w w' : Window} {es : List Event} (h : Moves p f w es w')
    (classified : ∀ s ∈ w.buffer, s.Classified f.codec) :
    ∀ s ∈ w'.buffer, s.Classified f.codec := by
  intro s hs
  apply classified
  rw [h.buffer_eq]
  exact List.mem_append_right _ hs

theorem settleChecked_of_settled {w w' : Window} {es : List Event}
    (h : turnChecked p f w = some (.settled w' es)) : settleChecked p f w = some (w', es) := by
  rw [settleChecked]
  split <;> simp_all

/-- The loop of checked turns goes on behind one that moves. -/
theorem settleChecked_of_moved {w w' : Window} {es : List Event}
    (h : turnChecked p f w = some (.moved w' es)) :
    settleChecked p f w = (settleChecked p f w').map fun rest => (rest.1, es ++ rest.2) := by
  rw [settleChecked]
  split
  · simp_all
  · simp_all
  · rename_i hturn
    rw [h] at hturn
    obtain ⟨rfl, rfl⟩ := Turn.moved.inj (Option.some.inj hturn)
    cases settleChecked p f w' <;> rfl

/-- **Settling is defined.** -/
theorem settleChecked_eq {w : Window} (ticks : 0 < f.ticksPerMs)
    (classified : ∀ s ∈ w.buffer, s.Classified f.codec) :
    settleChecked p f w = some (settle p f w) := by
  fun_induction settle p f w with
  | case1 w w' es h =>
      exact settleChecked_of_settled ((turnChecked_eq ticks classified).trans (congrArg some h))
  | case2 w w' es h w'' more hrec ih =>
      have hturn := turnChecked_eq (p := p) ticks classified
      have hmoves := turn_moves (p := p) (f := f) w
      rw [h] at hturn hmoves
      rw [settleChecked_of_moved hturn, ih (hmoves.classified classified), hrec]
      rfl

theorem trimChecked_of_length_le {w : Window} (h : w.buffer.length ≤ p.capacity) :
    trimChecked p f w = some (w, []) := by
  rw [trimChecked]
  split
  · rfl
  · rename_i head tail hb
    rw [hb] at h
    rw [if_neg (by simpa using h)]
    rfl

/-- Over capacity the head is evicted, and trimming goes on with what settles. -/
theorem trimChecked_of_lt {head : Slot} {tail : List Slot} {consumed : Option SeqNum}
    {settled : Window × List Event} (h : p.capacity < tail.length + 1)
    (hsettled : settleChecked p f ⟨tail, some head.seq⟩ = some settled) :
    trimChecked p f ⟨head :: tail, consumed⟩ =
      (trimChecked p f settled.1).map fun rest =>
        (rest.1, .evicted head :: settled.2 ++ rest.2) := by
  rw [trimChecked]
  simp only [if_pos h]
  split
  · simp_all
  · rename_i hs
    obtain rfl := Option.some.inj (hsettled.symm.trans hs)
    cases trimChecked p f _ <;> rfl

/-- **Trimming is defined.** -/
theorem trimChecked_eq {w : Window} (ticks : 0 < f.ticksPerMs)
    (classified : ∀ s ∈ w.buffer, s.Classified f.codec) :
    trimChecked p f w = some (trim p f w) := by
  fun_induction trim p f w with
  | case1 w hb => exact trimChecked_of_length_le (by simp [hb])
  | case2 w head tail hb hfull settled w' more hrec ih =>
      obtain ⟨buffer, consumed⟩ := w
      obtain rfl : buffer = head :: tail := hb
      have htail : ∀ s ∈ tail, s.Classified f.codec :=
        fun s hs => classified s (List.mem_cons_of_mem _ hs)
      have hsettled : settleChecked p f ⟨tail, some head.seq⟩ = some settled :=
        settleChecked_eq ticks htail
      rw [trimChecked_of_lt hfull hsettled, ih ((settle_moves _).classified htail), hrec]
      rfl
  | case3 w head tail hb hroom => exact trimChecked_of_length_le (by simpa [hb] using hroom)

/-- A packet that is put in was classified. -/
theorem insert?_classified {b b' : ReorderBuffer} {packet : Rtp.Packet}
    (classified : ∀ s ∈ b, s.Classified f.codec)
    (h : b.insert? (Slot.ofPacket f.codec packet) = some b') :
    ∀ s ∈ b', s.Classified f.codec := by
  intro s hs
  rcases List.mem_cons.mp ((ReorderBuffer.insert?_perm h).mem_iff.mp hs) with rfl | hs
  · exact Slot.classified_ofPacket f.codec packet
  · exact classified s hs

/-- **One packet.** -/
theorem feedChecked_eq {w : Window} (ticks : 0 < f.ticksPerMs)
    (classified : ∀ s ∈ w.buffer, s.Classified f.codec) (packet : Rtp.Packet) :
    feedChecked p f w packet = some (feed p f w packet) := by
  unfold feedChecked feed
  cases w.staleAfter? packet.seq with
  | some consumed => rfl
  | none =>
      have hslot : Slot.mk packet (.ofBody f.codec packet.body) = .ofPacket f.codec packet := rfl
      simp only [Placement.ofBodyChecked_eq, ReorderBuffer.insertChecked_eq, hslot,
        Option.bind_eq_bind, Option.bind_some]
      cases hinsert : w.buffer.insert? (.ofPacket f.codec packet) with
      | none => rfl
      | some buffer =>
          have hbuffer := insert?_classified classified hinsert
          have hsettle : settleChecked p f { w with buffer } = some _ :=
            settleChecked_eq ticks hbuffer
          have htrim := trimChecked_eq (p := p) ticks
            ((settle_moves (p := p) (f := f) { w with buffer }).classified hbuffer)
          simp only [hsettle, htrim, Option.bind_some]
          rfl

/-- All that waits after a packet is classified by its body. -/
theorem feed_classified {w : Window} (classified : ∀ s ∈ w.buffer, s.Classified f.codec)
    (packet : Rtp.Packet) : ∀ s ∈ (feed p f w packet).1.buffer, s.Classified f.codec := by
  have hfeed := feed_feeding (p := p) (f := f) w packet
  generalize feed p f w packet = result at hfeed
  cases hfeed with
  | stale _ _ | duplicate _ _ => exact classified
  | taken _ inserted moves =>
      exact moves.classified (insert?_classified classified inserted)

end Window

namespace Reassembler

/-- Takes one packet in. -/
def feedChecked (r : Reassembler) (packet : Rtp.Packet) :
    Checked (Reassembler × List Event) := do
  let (window, events) ← r.window.feedChecked r.policy r.format packet
  return ({ r with window, tally := r.tally.recordFeed events }, events)

/-- The clock ticks, and all that waits was classified. -/
structure Sound (r : Reassembler) : Prop where
  ticks : 0 < r.format.ticksPerMs
  classified : ∀ s ∈ r.window.buffer, s.Classified r.format.codec

/-- Feeding a sound reassembler is defined, and does what it does unchecked. -/
theorem Sound.feedChecked_eq {r : Reassembler} (sound : r.Sound) (packet : Rtp.Packet) :
    r.feedChecked packet = some (r.feed packet) := by
  simp [feedChecked, feed, Window.feedChecked_eq sound.ticks sound.classified]

/-- A sound reassembler stays sound with each packet. -/
theorem Sound.feed {r : Reassembler} (sound : r.Sound) (packet : Rtp.Packet) :
    (r.feed packet).1.Sound :=
  ⟨sound.ticks, Window.feed_classified sound.classified packet⟩

theorem Sound.clear {r : Reassembler} (sound : r.Sound) : r.clear.Sound :=
  ⟨sound.ticks, by simp [Reassembler.clear]⟩

end Reassembler

namespace Receiver

/-- The packet of a datagram, if the leg accepts it. -/
def acceptChecked (r : Receiver) (raw : Bytes) : Checked (Except SubmitError Rtp.Packet) :=
  if r.gate.disposed then return .error .disposed
  else do
    match ← Rtp.Packet.decodeChecked raw with
    | .error e => return .error (.malformed e)
    | .ok packet =>
      if r.payloadType.any (· != packet.header.payloadType) then
        return .error (.unexpectedPayloadType packet.header.payloadType)
      else if r.ssrc.any (· != packet.header.ssrc) then
        return .error (.unexpectedSsrc packet.header.ssrc)
      else return .ok packet

/-- Submits a datagram. -/
def submitChecked (r : Receiver) (raw : Bytes) :
    Checked (Receiver × Reaction (Except SubmitError Unit)) := do
  match ← r.acceptChecked raw with
  | .error e => return (r, { result := .error e })
  | .ok packet =>
    let learned :=
      if r.ssrc.isSome then []
      else [r.remark .debug s!"learned remote SSRC {describeSsrc packet.header.ssrc}"]
    let (reassembler, events) ← r.reassembler.feedChecked packet
    let (gate, units, log) := deliver reassembler r.gate events
    return ({ r with ssrc := some packet.header.ssrc, reassembler, gate },
      { result := .ok (), units, log := learned ++ log })

/-- Makes one call. -/
def stepChecked (r : Receiver) : Call → Checked (Receiver × Reaction Answer)
  | .submit raw => do
    let (r, reaction) ← r.submitChecked raw
    return (r, { reaction with result := .submitted reaction.result })
  | call => return r.step call

/-- Makes calls, one after the other. -/
def runChecked (r : Receiver) : List Call → Checked (Receiver × List (Reaction Answer))
  | [] => return (r, [])
  | call :: calls => do
    let first ← r.stepChecked call
    let rest ← runChecked first.1 calls
    return (rest.1, first.2 :: rest.2)

/-- No datagram, however malformed, is read out of bounds. -/
theorem acceptChecked_eq (r : Receiver) (raw : Bytes) :
    r.acceptChecked raw = some (r.accept raw) := by
  unfold acceptChecked accept
  rw [Rtp.Packet.decodeChecked_eq]
  split
  · rfl
  · cases Rtp.Packet.decode raw with
    | error e => rfl
    | ok packet =>
        simp only [Option.bind_eq_bind, Option.bind_some]
        split
        · rfl
        · split <;> rfl

/-- **One datagram.** -/
theorem submitChecked_eq {r : Receiver} (sound : r.reassembler.Sound) (raw : Bytes) :
    r.submitChecked raw = some (r.submit raw) := by
  unfold submitChecked submit
  rw [acceptChecked_eq]
  cases r.accept raw with
  | error e => rfl
  | ok packet => simp [sound.feedChecked_eq]

/-- A call to a leg is defined, given that its reassembler is sound. -/
theorem stepChecked_eq {r : Receiver} (sound : r.reassembler.Sound) (call : Call) :
    r.stepChecked call = some (r.step call) := by
  cases call with
  | submit raw => simp [stepChecked, step, submitChecked_eq sound]
  | advance signal => rfl
  | dispose => rfl

/-- The reassembler of a leg is sound after each call. -/
theorem step_sound {r : Receiver} (sound : r.reassembler.Sound) (call : Call) :
    (r.step call).1.reassembler.Sound := by
  cases call with
  | submit raw =>
      simp only [step, submit]
      cases r.accept raw with
      | error e => exact sound
      | ok packet => exact sound.feed packet
  | advance signal => exact sound
  | dispose =>
      simp only [step, dispose]
      split
      · exact sound
      · exact sound.clear

/-- **No datagram stops a receiver.** -/
theorem runChecked_eq {config : LegConfig} {policy : Policy} {r : Receiver}
    (created : create config policy = .ok r) (calls : List Call) :
    r.runChecked calls = some (r.run calls) := by
  have hsound : r.reassembler.Sound := by
    obtain ⟨-, rfl⟩ := eq_of_create created
    exact ⟨Nat.lt_of_lt_of_le Nat.zero_lt_one (Nat.le_max_left _ _), by simp⟩
  clear created
  induction calls generalizing r with
  | nil => rfl
  | cons call calls ih =>
      simp [runChecked, run, stepChecked_eq hsound, ih (step_sound hsound call)]

/-- Datagrams that are cut short or lie about their lengths, one in every way, are
refused; so are bodies, which come to nothing or to an empty unit.  A run that is
given up and a copy that is met go by index as well. -/
theorem runChecked_hostile :
    ∃ r calls, create { codec := .h264, clockRate := 1000 } ⟨8, 1, true⟩ = .ok r ∧
      calls = [.advance .sdpReceived, .advance .playReceived, .submit [], .submit [0x80, 96],
        .submit [0x8F, 96, 0, 1, 0, 0, 0, 0, 0, 0, 0, 1],
        .submit [0x90, 96, 0, 1, 0, 0, 0, 0, 0, 0, 0, 1, 0xBE, 0xDE],
        .submit [0x90, 96, 0, 1, 0, 0, 0, 0, 0, 0, 0, 1, 0xBE, 0xDE, 0xFF, 0xFF],
        .submit [0xA0, 96, 0, 1, 0, 0, 0, 0, 0, 0, 0, 1],
        .submit [0x80, 96, 0, 1, 0, 0, 0, 0, 0, 0, 0, 1],
        .submit [0x80, 96, 0, 2, 0, 0, 0, 0, 0, 0, 0, 1, 0x7C],
        .submit [0x80, 96, 0, 3, 0, 0, 0, 0, 0, 0, 0, 1, 0x78, 0, 9, 0x67],
        .submit [0x80, 96, 0, 4, 0, 0, 0, 0, 0, 0, 0, 1, 0x7C, 0x85],
        .submit [0x80, 96, 0, 5, 0, 0, 0, 0, 0, 0, 0, 1, 0x7C, 0x45],
        .submit [0x80, 96, 0, 6, 0, 0, 0, 0, 0, 0, 0, 1, 0x7C, 0x85],
        .submit [0x80, 96, 0, 6, 0, 0, 0, 0, 0, 0, 0, 1, 0x7C, 0x85],
        .submit [0x80, 96, 0, 8, 0, 0, 0, 0, 0, 0, 0, 1, 0x7C, 0x45],
        .submit [0x80, 96, 0, 9, 0, 0, 0, 0, 0, 0, 0, 1, 0x41], .dispose] ∧
      (r.run calls).2.flatMap Reaction.units =
        [⟨.h264, 0, [0, 0, 0, 1, 0x65]⟩, ⟨.h264, 0, [0, 0, 0, 1, 0x41]⟩] ∧
      (r.run calls).1.tally = ⟨9, 2, 0, 1, 4, 1, 0, 1⟩ ∧
      r.runChecked calls = some (r.run calls) :=
  ⟨_, _, rfl, rfl, by decide +kernel, by decide +kernel,
    @runChecked_eq { codec := .h264, clockRate := 1000 } ⟨8, 1, true⟩ _ rfl _⟩

end Receiver

end RtpReassembly
