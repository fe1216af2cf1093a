import RtpReassembly.Window

/-!
# Counters

What has happened to a stream, in numbers.  `Tally.record` adds one event to
the counters.
-/

namespace RtpReassembly

/-- Counters of one stream, or of several together. -/
structure Tally where
  /-- Packets fed. -/
  packets : Nat := 0
  accessUnits : Nat := 0
  /-- Packets that came too late. -/
  stale : Nat := 0
  duplicates : Nat := 0
  /-- Packets that left without being of use: unsupported, malformed, orphaned. -/
  dropped : Nat := 0
  /-- Runs of fragments given up. -/
  abandonedRuns : Nat := 0
  evicted : Nat := 0
  /-- Sequence numbers given up. -/
  lost : Nat := 0
  deriving DecidableEq, Repr

namespace Tally

/-- Counters of two streams together. -/
def add (a b : Tally) : Tally :=
  { packets := a.packets + b.packets
    accessUnits := a.accessUnits + b.accessUnits
    stale := a.stale + b.stale
    duplicates := a.duplicates + b.duplicates
    dropped := a.dropped + b.dropped
    abandonedRuns := a.abandonedRuns + b.abandonedRuns
    evicted := a.evicted + b.evicted
    lost := a.lost + b.lost }

instance : Add Tally := ⟨add⟩

/-- Counters of any number of streams together. -/
def sum (ts : List Tally) : Tally :=
  ts.foldl (· + ·) {}

/-- The counters after one more event. -/
def record (t : Tally) : Event → Tally
  | .stale _ _ => { t with stale := t.stale + 1 }
  | .classified _ => t
  | .duplicate _ => { t with duplicates := t.duplicates + 1 }
  | .gaveUp missing _ => { t with lost := t.lost + missing }
  | .emitted _ _ _ => { t with accessUnits := t.accessUnits + 1 }
  | .dropped _ _ => { t with dropped := t.dropped + 1 }
  | .orphanWaits _ => t
  | .orphansDiscarded _ others => { t with dropped := t.dropped + (others.length + 1) }
  | .runAbandoned _ first others next =>
    { t with
      abandonedRuns := t.abandonedRuns + 1
      lost := t.lost + Window.lostBefore (lastSeq first others) next }
  | .evicted _ => { t with evicted := t.evicted + 1 }

/-- The counters after a packet was fed and events followed. -/
def recordFeed (t : Tally) (events : List Event) : Tally :=
  events.foldl record { t with packets := t.packets + 1 }

end Tally

end RtpReassembly
