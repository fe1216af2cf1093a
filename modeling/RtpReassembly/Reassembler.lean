import RtpReassembly.Tally

/-!
# Reassembly of one stream

A reassembler takes the packets of one stream in the order of arrival and
gives its access units in the order of sequence numbers.  It starts with the
first packet that arrives; nothing that comes before it in the stream is
waited for, unless that packet is a fragment that continues another.
-/

namespace RtpReassembly

/-- The clock of a stream is too slow to tell milliseconds. -/
structure ClockTooSlow where
  clockRate : UInt32
  deriving DecidableEq, Repr

/-- The wording of the error. -/
def ClockTooSlow.message (e : ClockTooSlow) : String :=
  s!"invalid clock rate: {e.clockRate} Hz (must be >= 1000)"

/-- The state of reassembly of one stream. -/
structure Reassembler where
  format : Format
  policy : Policy
  window : Window := {}
  tally : Tally := {}

namespace Reassembler

/-- A reassembler that has seen nothing. -/
def create (codec : Codec) (clockRate : UInt32) (policy : Policy) :
    Except ClockTooSlow Reassembler :=
  if clockRate < 1000 then .error ⟨clockRate⟩
  else .ok { format := Format.ofClockRate codec clockRate, policy }

/-- Takes one packet in; the events tell what came of it. -/
def feed (r : Reassembler) (packet : Rtp.Packet) : Reassembler × List Event :=
  let (window, events) := r.window.feed r.policy r.format packet
  ({ r with window, tally := r.tally.recordFeed events }, events)

/-- Forgets the packets that wait and the last number that left; the counters
stay. -/
def clear (r : Reassembler) : Reassembler :=
  { r with window := {} }

/-- What a reassembler is given. -/
inductive Input
  | packet (p : Rtp.Packet)
  | clear
  deriving DecidableEq, Repr

/-- Takes one input in. -/
def step (r : Reassembler) : Input → Reassembler × List Event
  | .packet p => r.feed p
  | .clear => (r.clear, [])

/-- Takes inputs in, one after the other. -/
def run (r : Reassembler) : List Input → Reassembler × List Event
  | [] => (r, [])
  | input :: inputs =>
    let first := r.step input
    let rest := run first.1 inputs
    (rest.1, first.2 ++ rest.2)

/-- What is logged about events. -/
def remarks (r : Reassembler) (events : List Event) : List Log.Entry :=
  events.flatMap (Event.remarks r.format.codec r.policy)

end Reassembler

end RtpReassembly
