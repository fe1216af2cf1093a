/-!
# Log entries

What the library has to tell about its work is data: each operation gives the
entries it would log, in the order in which they arise, and the caller decides
which to keep and where.
-/

namespace RtpReassembly.Log

/-- How severe an entry is. -/
inductive Level
  | trace
  | debug
  | info
  | warning
  | error
  deriving DecidableEq, Repr

/-- The levels in order, from 0. -/
def Level.rank : Level → Nat
  | .trace => 0
  | .debug => 1
  | .info => 2
  | .warning => 3
  | .error => 4

/-- The name in a log line. -/
def Level.name : Level → String
  | .trace => "TRACE"
  | .debug => "DEBUG"
  | .info => "INFO"
  | .warning => "WARN"
  | .error => "ERROR"

/-- One entry.  The target names the part that made it. -/
structure Entry where
  level : Level
  target : String
  text : String
  deriving DecidableEq, Repr

/-- The parts of the library that log. -/
inductive Component
  | placement
  | assembly
  | window
  | gate
  | receiver
  | replay
  deriving DecidableEq, Repr

namespace Component

/-- The name of a part in log lines. -/
def target : Component → String
  | .placement => "rtp_unpacker::depacketizer::classifier"
  | .assembly => "rtp_unpacker::depacketizer::avc_hevc_depacketizer"
  | .window => "rtp_unpacker::unpacker::rtp_unpack_container"
  | .gate => "rtp_unpacker::session::stage_gate"
  | .receiver => "rtp_unpacker::session::receive_leg"
  | .replay => "rtp_unpacker::dump::replay"

/-- An entry of a part. -/
def entry (c : Component) (level : Level) (text : String) : Entry :=
  { level, target := c.target, text }

end Component

/-- The line of an entry made at a time in milliseconds. -/
def Entry.render (e : Entry) (timeMs : Nat) : String :=
  s!"[{e.level.name}] {timeMs} {e.target} | {e.text}"

/-- The entries of at least a level. -/
def atLeast (level : Level) (es : List Entry) : List Entry :=
  es.filter (fun e => level.rank ≤ e.level.rank)

end RtpReassembly.Log
