import RtpReassembly.Assembly
import RtpReassembly.Policy

/-!
# The window over a stream

A window is what reassembly remembers of a stream: the packets that wait, and
the number of the last one that left.  `Window.feed` takes one packet in and
then lets everything go that can go:

* `turn` is one look at the head of the buffer, and `settle` looks until
  nothing moves;
* `trim` evicts the oldest packets of a buffer over capacity, and settles after
  each.

Whatever happens is an `Event`, which names the packets that leave.  Units,
counters and log entries are all read off the events.
-/

namespace RtpReassembly

/-- Why a run of fragments is given up. -/
inductive RunFault
  /-- A packet behind the run is missing for good. -/
  | sequenceGap
  /-- The next packet belongs to something else. -/
  | unterminated
  deriving DecidableEq, Repr

/-- The wording of a fault. -/
def RunFault.message : RunFault → String
  | .sequenceGap => "sequence gap"
  | .unterminated => "unterminated run"

/-- What happens to a stream.  Rows of packets that leave are given by their
first and the others. -/
inductive Event
  /-- A packet arrived that is not after the last one that left. -/
  | stale (seq consumed : SeqNum)
  /-- A packet was taken in and classified. -/
  | classified (packet : Rtp.Packet)
  /-- A packet with the number of a waiting one was refused. -/
  | duplicate (seq : SeqNum)
  /-- `missing` numbers before the head are lost. -/
  | gaveUp (missing : Nat) (head : SeqNum)
  /-- A unit was made of packets. -/
  | emitted (unit : AccessUnit) (first : Slot) (others : List Slot)
  /-- The head was dropped. -/
  | dropped (cause : DropCause) (head : Slot)
  /-- The head is a fragment whose start may still come. -/
  | orphanWaits (head : Slot)
  /-- Fragments without a start were discarded. -/
  | orphansDiscarded (first : Slot) (others : List Slot)
  /-- An unfinished run was given up; `next` is the packet behind it. -/
  | runAbandoned (fault : RunFault) (first : Slot) (others : List Slot) (next : Option SeqNum)
  /-- The head had to make room. -/
  | evicted (head : Slot)
  deriving DecidableEq, Repr

namespace Event

/-- The unit that an event hands out. -/
def unit? : Event → Option AccessUnit
  | .emitted unit _ _ => some unit
  | _ => none

/-- The packets that leave the buffer with an event. -/
def slots : Event → List Slot
  | .emitted _ first others => first :: others
  | .dropped _ head => [head]
  | .orphansDiscarded first others => first :: others
  | .runAbandoned _ first others _ => first :: others
  | .evicted head => [head]
  | _ => []

/-- The text of an optional sequence number in log entries. -/
def describeSeq : Option SeqNum → String
  | some s => s!"Some({s})"
  | none => "None"

/-- What is logged about an event. -/
def remarks (codec : Codec) (policy : Policy) (e : Event) : List Log.Entry :=
  let about (level : Log.Level) (text : String) : List Log.Entry :=
    [Log.Component.window.entry level (s!"[{codec.name}] " ++ text)]
  match e with
  | .stale seq consumed => about .debug s!"stale packet dropped. seq={seq}, consumed={consumed}"
  | .classified packet => [Placement.remark codec packet]
  | .duplicate seq => about .debug s!"duplicate packet dropped. seq={seq}"
  | .gaveUp missing head =>
    about .warning s!"giving up on {missing} missing packet(s) before seq={head}"
  | .emitted _ _ _ => []
  | .dropped cause head => Outcome.remarks codec (.dropped cause head.seq)
  | .orphanWaits head => Outcome.remarks codec (.incomplete (some head))
  | .orphansDiscarded first others =>
    let count := others.length + 1
    let last := lastSeq first others
    about .warning s!"discarded {count} orphan fragment(s). seq={first.seq}..={last}"
  | .runAbandoned fault first others next =>
    let last := lastSeq first others
    about .warning (s!"fragment run abandoned ({fault.message}). " ++
      s!"seq={first.seq}..={last}, next={describeSeq next}")
  | .evicted head =>
    about .warning (s!"buffer over {policy.capacity} packets, evicted oldest. " ++
      s!"seq={head.seq}, pos={head.placement.name}")

end Event

/-- The packets that wait, oldest first, and the number of the last that left. -/
structure Window where
  buffer : ReorderBuffer := []
  consumed : Option SeqNum := none
  deriving DecidableEq, Repr

/-- The result of one look at the head. -/
inductive Turn
  /-- Nothing more can be done for now. -/
  | settled (w : Window) (events : List Event)
  /-- The head left. -/
  | moved (w : Window) (events : List Event)

namespace Window

/-- The sequence number at the head. -/
def headSeq? (w : Window) : Option SeqNum :=
  w.buffer.head?.map Slot.seq

/-- The numbers between `last` and the packet `next` behind it. -/
def lostBefore (last : SeqNum) : Option SeqNum → Nat
  | some next => if SeqNum.follows last next then 0 else SeqNum.missingBetween last next
  | none => 0

/-- The number that counts as the last that left when a run that ends with
`last` is given up: a hole behind it goes with it. -/
def consumedWithHole (last : SeqNum) : Option SeqNum → SeqNum
  | some next => if SeqNum.follows last next then last else next - 1
  | none => last

/-- The last number that left, once a hole before the number `head` is no more
to be waited for, with `waiting` packets in the buffer; `none` while it is. -/
def passHole? (p : Policy) (consumed : Option SeqNum) (head : SeqNum) (waiting : Nat) :
    Option (Option SeqNum × List Event) :=
  match consumed with
  | none => some (none, [])
  | some c =>
    if SeqNum.follows c head then some (some c, [])
    else if p.isLost waiting then
      some (some (head - 1), [.gaveUp (SeqNum.missingBetween c head) head])
    else none

/-- The fragments that go with an orphan of number `prev` that is not an end:
those that continue it, up to an end; and what stands behind them. -/
def splitOrphans (prev : SeqNum) : List Slot → List Slot × List Slot
  | [] => ([], [])
  | s :: rest =>
    if ¬ (s.placement.isContinuation ∧ SeqNum.follows prev s.seq) then ([], s :: rest)
    else if s.placement = .fragmentEnd then ([s], rest)
    else
      let (others, behind) := splitOrphans s.seq rest
      (s :: others, behind)

/-- The fragments that go with an orphan at the head, and what stands behind
them. -/
def orphansAfter (head : Slot) (tail : List Slot) : List Slot × List Slot :=
  if head.placement = .fragmentEnd then ([], tail) else splitOrphans head.seq tail

/-- Gives up the run of `run` packets at the head. -/
def abandonRun (fault : RunFault) (run : Nat) (head : Slot) (tail : List Slot) : Turn :=
  let others := tail.take (run - 1)
  let behind := tail.drop (run - 1)
  let last := lastSeq head others
  let next := behind.head?.map Slot.seq
  .moved { buffer := behind, consumed := some (consumedWithHole last next) }
    [.runAbandoned fault head others next]

/-- Serves the head of the buffer, before which no hole is waited for. -/
def serve (p : Policy) (f : Format) (consumed : Option SeqNum) (head : Slot)
    (tail : List Slot) : Turn :=
  if head.placement.isContinuation ∧ p.discardOrphans ∧
      (consumed.isSome ∨ p.isLost (tail.length + 1)) then
    let (others, behind) := orphansAfter head tail
    .moved { buffer := behind, consumed := some (lastSeq head others) }
      [.orphansDiscarded head others]
  else
    match assemble f (head :: tail) with
    | .emitted unit used last =>
      .moved { buffer := tail.drop (used - 1), consumed := some last }
        [.emitted unit head (tail.take (used - 1))]
    | .dropped cause last =>
      .moved { buffer := tail, consumed := some last } [.dropped cause head]
    | .incomplete orphan =>
      .settled { buffer := head :: tail, consumed } (orphan.toList.map .orphanWaits)
    | .gap run =>
      if p.isLost (tail.length + 1 - run) then abandonRun .sequenceGap run head tail
      else .settled { buffer := head :: tail, consumed } []
    | .broken run => abandonRun .unterminated run head tail

/-- One look at the head of the buffer. -/
def turn (p : Policy) (f : Format) (w : Window) : Turn :=
  match w.buffer with
  | [] => .settled w []
  | head :: tail =>
    match passHole? p w.consumed head.seq (tail.length + 1) with
    | none => .settled w []
    | some (consumed, events) =>
      match serve p f consumed head tail with
      | .settled w more => .settled w (events ++ more)
      | .moved w more => .moved w (events ++ more)

/-- Only continuations are split off, so what stays is not longer. -/
theorem splitOrphans_length (prev : SeqNum) (b : List Slot) :
    (splitOrphans prev b).2.length ≤ b.length := by
  induction b generalizing prev with
  | nil => simp [splitOrphans]
  | cons s rest ih =>
    unfold splitOrphans
    split
    · simp
    · split
      · simp
      · have := ih s.seq
        simp only [List.length_cons]
        omega

/-- What stays behind orphans is not longer than what stood behind the first. -/
theorem orphansAfter_length (head : Slot) (tail : List Slot) :
    (orphansAfter head tail).2.length ≤ tail.length := by
  unfold orphansAfter
  split
  · simp
  · exact splitOrphans_length _ _

/-- The head leaves whenever anything moves. -/
theorem serve_moved_length {p : Policy} {f : Format} {consumed : Option SeqNum} {head : Slot}
    {tail : List Slot} {w : Window} {es : List Event}
    (h : serve p f consumed head tail = .moved w es) : w.buffer.length ≤ tail.length := by
  unfold serve abandonRun at h
  split at h
  · injection h with hw
    subst hw
    exact orphansAfter_length head tail
  · split at h
    · injection h with hw
      subst hw
      simp
    · injection h with hw
      subst hw
      simp
    · simp at h
    · split at h
      · injection h with hw
        subst hw
        simp
      · simp at h
    · injection h with hw
      subst hw
      simp

/-- A turn that moves shortens the buffer. -/
theorem turn_moved_length {p : Policy} {f : Format} {w w' : Window} {es : List Event}
    (h : turn p f w = .moved w' es) : w'.buffer.length < w.buffer.length := by
  unfold turn at h
  split at h
  · simp at h
  · rename_i head tail hb
    split at h
    · simp at h
    · split at h
      · simp at h
      · rename_i hs
        injection h with hw
        subst hw
        rw [hb]
        exact Nat.lt_succ_of_le (serve_moved_length hs)

/-- A turn that does not move keeps the buffer. -/
theorem turn_settled_buffer {p : Policy} {f : Format} {w w' : Window} {es : List Event}
    (h : turn p f w = .settled w' es) : w'.buffer = w.buffer := by
  unfold turn at h
  split at h
  · injection h with hw
    rw [← hw]
  · rename_i head tail hb
    split at h
    · injection h with hw
      rw [← hw]
    · split at h
      · rename_i hs
        injection h with hw
        subst hw
        rw [hb]
        unfold serve abandonRun at hs
        split at hs
        · simp at hs
        · split at hs
          · simp at hs
          · simp at hs
          · injection hs with hw
            rw [← hw]
          · split at hs
            · simp at hs
            · injection hs with hw
              rw [← hw]
          · simp at hs
      · simp at h

/-- Looks at the head until nothing moves. -/
def settle (p : Policy) (f : Format) (w : Window) : Window × List Event :=
  match _h : turn p f w with
  | .settled w' events => (w', events)
  | .moved w' events =>
    let (w'', more) := settle p f w'
    (w'', events ++ more)
termination_by w.buffer.length
decreasing_by exact turn_moved_length _h

/-- Settling takes from the buffer and puts nothing into it. -/
theorem settle_length (p : Policy) (f : Format) (w : Window) :
    (settle p f w).1.buffer.length ≤ w.buffer.length := by
  fun_induction settle p f w with
  | case1 w w' es h => exact Nat.le_of_eq (congrArg List.length (turn_settled_buffer h))
  | case2 w w' es h w'' more hrec ih =>
    have := turn_moved_length h
    rw [hrec] at ih
    simp only at ih ⊢
    omega

/-- Evicts the oldest packets of a buffer over capacity, and lets go after each
whatever it held up. -/
def trim (p : Policy) (f : Format) (w : Window) : Window × List Event :=
  match _h : w.buffer with
  | [] => (w, [])
  | head :: tail =>
    if p.capacity < tail.length + 1 then
      let settled := settle p f { buffer := tail, consumed := some head.seq }
      let (w', more) := trim p f settled.1
      (w', .evicted head :: settled.2 ++ more)
    else (w, [])
termination_by w.buffer.length
decreasing_by
  have := settle_length p f { buffer := tail, consumed := some head.seq }
  rw [_h]
  simp only [List.length_cons] at this ⊢
  omega

/-- Whether a packet comes too late: its number is not after the last that
left.  With it comes that last number. -/
def staleAfter? (w : Window) (seq : SeqNum) : Option SeqNum :=
  w.consumed.filter (fun c => SeqNum.order seq c != .gt)

/-- Takes one packet in, and lets go whatever can go. -/
def feed (p : Policy) (f : Format) (w : Window) (packet : Rtp.Packet) : Window × List Event :=
  match w.staleAfter? packet.seq with
  | some consumed => (w, [.stale packet.seq consumed])
  | none =>
    match w.buffer.insert? (Slot.ofPacket f.codec packet) with
    | none => (w, [.classified packet, .duplicate packet.seq])
    | some buffer =>
      let settled := settle p f { w with buffer }
      let trimmed := trim p f settled.1
      (trimmed.1, .classified packet :: settled.2 ++ trimmed.2)

end Window

end RtpReassembly
