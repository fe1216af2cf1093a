import RtpReassembly.Proofs.Counts
import RtpReassembly.Proofs.Order
import RtpReassembly.Proofs.Rest
import Mathlib.Algebra.GroupWithZero.Nat

/-!
# Where the numbers of a stream go

A feed leads the last number that left forward.  The numbers that it is led past
are those of the packets that leave on the way and those that are given up for
lost, with one exception: when the oldest packet is evicted from behind a hole,
the numbers of the hole are passed over without a count.

* `Event.lastLeft`, `Event.lost`, `Event.passedOver`: what one event does to the
  last number that left, and which numbers it counts as lost or passes over;
* `Moves.accounted`: along any moves each number goes one of these ways;
* `ReluctantMoves.passedOver_eq_zero`: none is passed over if the capacity is no
  less than the tolerance, since a window over capacity then stands before no hole;
* `feed_accounted` is the main statement, and `evicted_hole_uncounted` shows the
  exception.
-/

namespace RtpReassembly

namespace Event

/-- The last number that left after an event, if it was `c` before. -/
def lastLeft (c : SeqNum) : Event → SeqNum
  | .gaveUp _ head => head - 1
  | .emitted _ first others => lastSeq first others
  | .dropped _ head => head.seq
  | .orphansDiscarded first others => lastSeq first others
  | .runAbandoned _ first others next => Window.consumedWithHole (lastSeq first others) next
  | .evicted head => head.seq
  | _ => c

/-- How many numbers an event gives up for lost. -/
def lost : Event → Nat
  | .gaveUp missing _ => missing
  | .runAbandoned _ first others next => Window.lostBefore (lastSeq first others) next
  | _ => 0

/-- How many numbers before an evicted packet are passed over, if `c` was the
last number that left. -/
def passedOver (c : SeqNum) : Event → Nat
  | .evicted head => SeqNum.missingBetween c head.seq
  | _ => 0

/-- How many numbers are passed over in events, one after the other. -/
def passedOverAll (c : SeqNum) : List Event → Nat
  | [] => 0
  | e :: es => e.passedOver c + passedOverAll (e.lastLeft c) es

end Event

/-- The counter of lost numbers grows by what each event gives up. -/
theorem Tally.recordAll_lost (t : Tally) (es : List Event) :
    (t.recordAll es).lost = t.lost + (es.map Event.lost).sum := by
  induction es generalizing t with
  | nil => rfl
  | cons e es ih =>
      have hstep : (t.record e).lost = t.lost + e.lost := by cases e <;> rfl
      have hrest := ih (t.record e)
      simp only [recordAll, List.foldl_cons, List.map_cons, List.sum_cons] at hrest ⊢
      omega

/-- No number is missing before the next one. -/
theorem SeqNum.missingBetween_of_follows {a b : SeqNum} (h : follows a b) :
    missingBetween a b = 0 := by
  have hnext := follows_iff.mp h
  simp [missingBetween, offset, hnext, half]

/-- The numbers between two on a half circle are those at the distances between
theirs. -/
theorem SeqNum.missingBetween_of_ahead {a b r : SeqNum} (ha : ahead a r < half)
    (hb : ahead b r < half) : missingBetween a b = ahead b r - ahead a r - 1 := by
  unfold missingBetween
  rw [offset_of_ahead hb ha]
  omega

namespace Window

variable {p : Policy} {f : Format} {r c : SeqNum}

/-- The last of consecutive packets is as far behind the first as there are
packets between. -/
theorem ahead_lastSeq {head : Slot} {others : List Slot} (h : Contiguous (head :: others))
    (hsorted : (head :: others).Pairwise
      (fun s t => SeqNum.ahead s.seq r < SeqNum.ahead t.seq r)) :
    SeqNum.ahead (lastSeq head others) r = SeqNum.ahead head.seq r + others.length := by
  induction others generalizing head with
  | nil => rfl
  | cons s others ih =>
      obtain ⟨hnext, hrest⟩ := contiguous_cons_cons.mp h
      obtain ⟨hlt, hrow⟩ := List.pairwise_cons.mp hsorted
      have hne := SeqNum.ne_of_ahead_lt (hlt s List.mem_cons_self)
      rw [lastSeq_cons, ih hrest hrow, SeqNum.ahead_of_follows hnext hne, List.length_cons]
      omega

/-- No row is shorter than the numbers that it leads past. -/
theorem Within.advance {head : Slot} {others behind : List Slot}
    (hw : Within r ⟨head :: (others ++ behind), some c⟩) (next : IsNext (some c) head)
    (contiguous : Contiguous (head :: others)) :
    SeqNum.ahead (lastSeq head others) r = SeqNum.ahead c r + (others.length + 1) := by
  have hrow := (List.pairwise_append.mp (List.cons_append ▸ hw.sorted.1)).1
  have hbehind := hw.behind c rfl head List.mem_cons_self
  rw [ahead_lastSeq contiguous hrow,
    SeqNum.ahead_of_follows (next c rfl) (SeqNum.ne_of_ahead_lt hbehind)]
  omega

/-- The last number after a move is what its event says. -/
theorem Move.consumed_eq {w w' : Window} {e : Event} (h : Move p f w e w')
    (hc : w.consumed = some c) : w'.consumed = some (e.lastLeft c) := by
  cases h with
  | abandonGap next run hole lost => simp [Event.lastLeft, consumedWithHole, hole]
  | abandonBroken next run follows other => simp [Event.lastLeft, consumedWithHole, follows]
  | wait => exact hc
  | _ => rfl

/-- **One move.**  The numbers that it leads past are those of the packets that
leave, those given up, and those passed over. -/
theorem Move.accounted {w w' : Window} {e : Event} (h : Move p f w e w') (hw : w.Within r)
    (hc : w.consumed = some c) :
    SeqNum.ahead (e.lastLeft c) r =
      SeqNum.ahead c r + (e.slots.length + e.lost + e.passedOver c) := by
  obtain ⟨buffer, consumed⟩ := w
  obtain rfl : consumed = some c := hc
  have hnear := hw.near c rfl
  cases h with
  | @giveUp _ head tail hole lost =>
      have hhead := hw.behind c rfl head List.mem_cons_self
      have hskip := hw.skip.2
      simp only [Event.lastLeft, Event.slots, Event.lost, Event.passedOver, List.length_nil,
        SeqNum.ahead_pred (SeqNum.ne_of_ahead_lt hhead),
        SeqNum.missingBetween_of_ahead hnear (hw.sorted.2 head List.mem_cons_self)] at hskip ⊢
      omega
  | wait next orphan => simp [Event.lastLeft, Event.slots, Event.lost, Event.passedOver]
  | emit next forms =>
      simpa [Event.lastLeft, Event.slots, Event.lost, Event.passedOver] using
        hw.advance next forms.contiguous
  | @drop _ head tail _ next useless =>
      simpa [Event.lastLeft, Event.slots, Event.lost, Event.passedOver] using
        @Within.advance r c head [] tail hw next (contiguous_singleton head)
  | discard next allowed given orphans contiguous =>
      simpa [Event.lastLeft, Event.slots, Event.lost, Event.passedOver] using
        hw.advance next contiguous
  | @abandonGap _ head s others behind next run hole lost =>
      -- the run leaves first, and then the hole behind it is skipped
      have hlast := hw.advance next run.contiguous
      have hw' := hw.leave.1
      have hs := hw'.behind _ rfl s List.mem_cons_self
      simp only [Event.lastLeft, consumedWithHole, hole, Event.slots, Event.lost, lostBefore,
        Event.passedOver, SeqNum.ahead_pred (SeqNum.ne_of_ahead_lt hs), Bool.false_eq_true,
        if_false, List.length_cons,
        SeqNum.missingBetween_of_ahead (hw'.near _ rfl) (hw'.sorted.2 s List.mem_cons_self)]
      omega
  | abandonBroken next run follows other =>
      simpa [Event.lastLeft, consumedWithHole, follows, Event.slots, Event.lost, lostBefore,
        Event.passedOver] using hw.advance next run.contiguous
  | @evict _ head tail full =>
      have hhead := hw.behind c rfl head List.mem_cons_self
      simp only [Event.lastLeft, Event.slots, Event.lost, Event.passedOver, List.length_cons,
        List.length_nil,
        SeqNum.missingBetween_of_ahead hnear (hw.sorted.2 head List.mem_cons_self)]
      omega

/-- **Any moves.**  Each number that they lead past goes one of the three ways. -/
theorem Moves.accounted {w w' : Window} {es : List Event} (h : Moves p f w es w')
    (hw : w.Within r) (hc : w.consumed = some c) :
    ∃ c', w'.consumed = some c' ∧
      SeqNum.ahead c' r = SeqNum.ahead c r + ((es.flatMap Event.slots).length +
        (es.map Event.lost).sum + Event.passedOverAll c es) := by
  induction h generalizing c with
  | nil w => exact ⟨c, hc, by simp [Event.passedOverAll]⟩
  | @cons w w' w'' e es move _ ih =>
      have hfirst := move.accounted hw hc
      obtain ⟨c', hc', hrest⟩ := ih (move.within hw).1 (move.consumed_eq hc)
      refine ⟨c', hc', ?_⟩
      rw [hrest, hfirst, List.flatMap_cons, List.length_append, List.map_cons, List.sum_cons,
        Event.passedOverAll]
      omega

/-- **Nothing is passed over** if the capacity is no less than the tolerance: a
window over capacity then does not wait for a hole before its head. -/
theorem ReluctantMoves.passedOver_eq_zero {w w' : Window} {es : List Event}
    (h : ReluctantMoves p f w es w') (room : p.tolerance ≤ p.capacity)
    (hc : w.consumed = some c) : Event.passedOverAll c es = 0 := by
  induction h generalizing c with
  | nil w => rfl
  | @cons w w' w'' e es move atRest _ ih =>
      rw [Event.passedOverAll, ih (move.consumed_eq hc), Nat.add_zero]
      cases move with
      | @evict _ head tail full =>
          obtain rfl : _ = some c := hc
          have hnext : IsNext (some c) head := by
            obtain hempty | ⟨a, hwaits⟩ := atRest head rfl
            · simp at hempty
            · cases hwaits with
              | hole _ short => omega
              | runEnd next _ _ _ => exact next
              | runStart next _ _ => exact next
          exact SeqNum.missingBetween_of_follows (hnext c rfl)
      | _ => rfl

/-- Packets at increasing distances of less than half a circle after the last
number that left. -/
theorem within_of_near {w : Window} (last : w.consumed = some c)
    (increasing : (w.buffer.seqs.map (SeqNum.ahead · c)).Pairwise (· < ·))
    (near : ∀ s ∈ w.buffer.seqs, 1 ≤ SeqNum.ahead s c ∧ SeqNum.ahead s c ≤ 2 ^ 15 - 1) :
    w.Within c := by
  have hself : ∀ c' ∈ w.consumed, SeqNum.ahead c' c = 0 := by
    intro c' hc'
    obtain rfl := Option.some.inj (last.symm.trans hc')
    exact SeqNum.ahead_self c
  refine ⟨⟨?_, ?_⟩, ?_, ?_⟩
  · rw [ReorderBuffer.seqs, List.map_map, List.pairwise_map] at increasing
    exact increasing
  · intro s hs
    have := near s.seq (List.mem_map_of_mem hs)
    unfold SeqNum.half
    omega
  · intro c' hc'
    simp [hself c' hc', SeqNum.half]
  · intro c' hc' s hs
    rw [hself c' hc']
    exact (near s.seq (List.mem_map_of_mem hs)).1

/-- **One packet.**  Each number that it leads past goes one of the three
ways. -/
theorem Feeding.accounted {w w' : Window} {packet : Rtp.Packet} {es : List Event}
    (h : Feeding p f w packet (w', es)) (hw : w.Within c) (hc : w.consumed = some c) :
    ∃ c', w'.consumed = some c' ∧
      SeqNum.ahead c' c = (es.flatMap Event.slots).length + (es.map Event.lost).sum +
        Event.passedOverAll c es := by
  cases h with
  | stale _ _ | duplicate _ _ =>
      exact ⟨c, hc, by
        simp [Event.slots, Event.lost, Event.passedOverAll, Event.passedOver]⟩
  | @taken buffer w' es fresh inserted moves =>
      obtain ⟨hpos, hlt⟩ := SeqNum.order_eq_gt_iff.mp (fresh c hc)
      have hafter : ∀ c' ∈ w.consumed, SeqNum.ahead c' c < SeqNum.ahead packet.seq c := by
        intro c' hc'
        obtain rfl := Option.some.inj (hc.symm.trans hc')
        simpa using hpos
      obtain ⟨c', hc', hahead⟩ := moves.accounted
        (hw.insert (s := Slot.ofPacket f.codec packet) hlt hafter inserted) hc
      refine ⟨c', hc', ?_⟩
      simpa [Event.slots, Event.lost, Event.passedOverAll, Event.passedOver, Event.lastLeft]
        using hahead

/-- With a buffer no smaller than the tolerance, no call passes a number over: the
window that an eviction finds at rest would have given the hole up already. -/
theorem feed_passedOver_eq_zero {w : Window} (packet : Rtp.Packet)
    (room : p.tolerance ≤ p.capacity) (hc : w.consumed = some c) :
    Event.passedOverAll c (feed p f w packet).2 = 0 := by
  have hfeed := feed_feeding (p := p) (f := f) w packet
  generalize hresult : feed p f w packet = result at hfeed
  cases hfeed with
  | stale _ _ | duplicate _ _ => rfl
  | taken fresh inserted _ =>
      obtain ⟨es, hes, hmoves⟩ := feed_reluctant fresh inserted
      rw [hresult] at hes
      obtain ⟨-, rfl⟩ := List.cons.inj hes
      have hzero := hmoves.passedOver_eq_zero room (c := c) hc
      simpa [Event.passedOverAll, Event.passedOver, Event.lastLeft] using hzero

end Window

namespace Reassembler

/-- **Every number is accounted for once.**  Let packets wait, if any, at
increasing distances of less than half a circle after the last number `c` that
left, and let any packet be fed.  Then the numbers that it leads past are as
many as the packets that leave, those that are counted as lost, and those that
are passed over since the packet behind them is evicted; and of the last kind
there are none if the capacity is no less than the tolerance. -/
theorem feed_accounted (r : Reassembler) (c : SeqNum) (packet : Rtp.Packet)
    (last : r.window.consumed = some c)
    (increasing : (r.window.buffer.seqs.map (SeqNum.ahead · c)).Pairwise (· < ·))
    (near : ∀ s ∈ r.window.buffer.seqs, 1 ≤ SeqNum.ahead s c ∧ SeqNum.ahead s c ≤ 2 ^ 15 - 1) :
    ((r.feed packet).2.flatMap Event.slots ++ (r.feed packet).1.window.buffer = r.window.buffer ∨
      ((r.feed packet).2.flatMap Event.slots ++ (r.feed packet).1.window.buffer).Perm
        (Slot.ofPacket r.format.codec packet :: r.window.buffer)) ∧
    ∃ c', (r.feed packet).1.window.consumed = some c' ∧
      SeqNum.ahead c' c + r.tally.lost =
        ((r.feed packet).2.flatMap Event.slots).length + (r.feed packet).1.tally.lost +
          Event.passedOverAll c (r.feed packet).2 ∧
      (r.policy.tolerance ≤ r.policy.capacity →
        Event.passedOverAll c (r.feed packet).2 = 0) := by
  have hwithin := Window.within_of_near last increasing near
  have hfeed : Window.Feeding r.policy r.format r.window packet
      ((r.feed packet).1.window, (r.feed packet).2) := Window.feed_feeding r.window packet
  obtain ⟨c', hc', hahead⟩ := hfeed.accounted hwithin last
  have hlost : (r.feed packet).1.tally.lost =
      r.tally.lost + ((r.feed packet).2.map Event.lost).sum := Tally.recordAll_lost _ _
  refine ⟨hfeed.perm, c', hc', ?_, fun room => Window.feed_passedOver_eq_zero packet room last⟩
  rw [hlost, hahead]
  omega

/-- The number 2 is given up for lost once two packets stand behind its hole. -/
theorem feed_accounted_given_up :
    ∃ r₀ r packet, create .h264 90000 ⟨4, 1, true⟩ = .ok r₀ ∧
      r = (r₀.run [.packet (.simple 96 true 1 9000 1 [0x41, 0xA0]),
        .packet (.simple 96 true 3 9000 1 [0x41, 0xB0])]).1 ∧
      packet = .simple 96 true 4 9000 1 [0x41, 0xC0] ∧
      r.window.consumed = some 1 ∧ r.window.buffer.seqs = [3] ∧
      (r.feed packet).1.window.consumed = some 4 ∧ r.tally.lost = 0 ∧
      (r.feed packet).1.tally.lost = 1 ∧
      SeqNum.ahead 4 1 + r.tally.lost =
        ((r.feed packet).2.flatMap Event.slots).length + (r.feed packet).1.tally.lost := by
  refine ⟨_, _, _, create_eq_ok (by decide), rfl, rfl, by decide +kernel, by decide +kernel,
    by decide +kernel, by decide +kernel, by decide +kernel, ?_⟩
  generalize hr : Reassembler.run _ _ = result
  have hlast : result.1.window.consumed = some 1 := by
    rw [← hr]
    decide +kernel
  have hseqs : result.1.window.buffer.seqs = [3] := by
    rw [← hr]
    decide +kernel
  have hled : (result.1.feed (.simple 96 true 4 9000 1 [0x41, 0xC0])).1.window.consumed =
      some 4 := by
    rw [← hr]
    decide +kernel
  have hroom : result.1.policy.tolerance ≤ result.1.policy.capacity := by
    rw [← hr]
    decide +kernel
  obtain ⟨-, c', hc', hcount, hzero⟩ := feed_accounted result.1 1
    (.simple 96 true 4 9000 1 [0x41, 0xC0]) hlast (by simp [hseqs]) (by
      rw [hseqs]
      intro s hs
      obtain rfl := List.mem_singleton.mp hs
      decide)
  obtain rfl : c' = 4 := Option.some.inj (hc'.symm.trans hled)
  rwa [hzero hroom, Nat.add_zero] at hcount

/-- **An eviction from behind a hole is not accounted for.**  With room for one
packet and a tolerance of two, the number 2 is passed over: three numbers are
led past, two packets leave, and none is counted as lost. -/
theorem evicted_hole_uncounted :
    ∃ r₀ r packet, create .h264 90000 ⟨1, 2, true⟩ = .ok r₀ ∧
      r = (r₀.run [.packet (.simple 96 true 1 9000 1 [0x41, 0xA0]),
        .packet (.simple 96 true 3 9000 1 [0x41, 0xB0])]).1 ∧
      packet = .simple 96 true 4 9000 1 [0x41, 0xC0] ∧
      r.window.consumed = some 1 ∧ r.window.buffer.seqs = [3] ∧
      (r.feed packet).1.window.consumed = some 4 ∧ SeqNum.ahead 4 1 = 3 ∧
      ((r.feed packet).2.flatMap Event.slots).length = 2 ∧
      (r.feed packet).1.tally.lost = r.tally.lost :=
  ⟨_, _, _, create_eq_ok (by decide), rfl, rfl, by decide +kernel, by decide +kernel,
    by decide +kernel, by decide +kernel, by decide +kernel, by decide +kernel⟩

end Reassembler

end RtpReassembly
