import RtpReassembly.Aggregation
import RtpReassembly.ReorderBuffer

/-!
# Assembly at the head of the buffer

One step of reassembly looks at the head of the buffer and at nothing behind
the unit that starts there.

* `assemble` says what the head amounts to: a unit, something to drop, a unit
  whose packets are still missing, or a run of fragments that can only be
  completed by what is missing (`gap`) or not at all (`broken`).
* `Outcome.used` says how many packets leave the buffer with it.
-/

namespace RtpReassembly

/-- A codec and the ticks of its RTP clock in a millisecond. -/
structure Format where
  codec : Codec
  ticksPerMs : Nat
  deriving DecidableEq, Repr

namespace Format

/-- The format of a codec whose RTP clock has a rate in hertz. -/
def ofClockRate (codec : Codec) (clockRate : UInt32) : Format :=
  { codec, ticksPerMs := max 1 (clockRate.toNat / 1000) }

/-- An RTP timestamp in milliseconds. -/
def toMs (f : Format) (timestamp : UInt32) : UInt64 :=
  UInt64.ofNat (timestamp.toNat / f.ticksPerMs)

/-- The access unit with a payload and the time of a packet. -/
def unitAt (f : Format) (timestamp : UInt32) (payload : Bytes) : AccessUnit :=
  { codec := f.codec, timestamp := f.toMs timestamp, payload }

end Format

/-- Why a packet at the head is of no use. -/
inductive DropCause
  | unsupported
  /-- The records of an aggregation are not complete; `length` octets of them. -/
  | malformedAggregation (length : Nat)
  /-- A fragment is too short for the placement that its slot claims. -/
  | shortFragment
  deriving DecidableEq, Repr

/-- What the head of the buffer amounts to. -/
inductive Outcome
  /-- A unit, made of the first `used` packets. -/
  | emitted (unit : AccessUnit) (used : Nat) (last : SeqNum)
  /-- The first packet is to be dropped. -/
  | dropped (cause : DropCause) (last : SeqNum)
  /-- Nothing can be said yet; a fragment at the head whose start is not there
  is named. -/
  | incomplete (orphan : Option Slot)
  /-- Behind the first `run` packets a sequence number is missing. -/
  | gap (run : Nat)
  /-- The first `run` packets are followed by one that is not of their unit. -/
  | broken (run : Nat)
  deriving DecidableEq, Repr

/-- How many packets leave the head of the buffer. -/
def Outcome.used : Outcome → Nat
  | .emitted _ used _ => used
  | .dropped _ _ => 1
  | _ => 0

/-- What is logged about an outcome. -/
def Outcome.remarks (codec : Codec) (o : Outcome) : List Log.Entry :=
  let about (level : Log.Level) (text : String) : List Log.Entry :=
    [Log.Component.assembly.entry level (s!"[{codec.name}] " ++ text)]
  match o with
  | .incomplete (some s) =>
    about .trace s!"orphan fragment at head. seq={s.seq}, pos={s.placement.name}"
  | .dropped (.malformedAggregation length) last =>
    about .error s!"invalid aggregation packet, dropping. seq={last}, len={length}"
  | _ => []

/-- The slots that go on a run of fragments after the number `prev`, without
an end among them, and what stands behind them. -/
def splitMiddles (prev : SeqNum) : List Slot → List Slot × List Slot
  | [] => ([], [])
  | s :: rest =>
    if SeqNum.follows prev s.seq ∧ s.placement = .fragmentMiddle then
      let (middles, behind) := splitMiddles s.seq rest
      (s :: middles, behind)
    else ([], s :: rest)

/-- The number of the last of a nonempty row of slots that starts with
`first`. -/
def lastSeq (first : Slot) (rest : List Slot) : SeqNum :=
  (rest.getLast?.getD first).seq

/-- The data of a row of fragments; `none` if one is shorter than its prefix. -/
def fragmentsData? (codec : Codec) : List Slot → Option Bytes
  | [] => some []
  | s :: rest =>
    match codec.fragmentData? s.body, fragmentsData? codec rest with
    | some data, some more => some (data ++ more)
    | _, _ => none

/-- The NAL unit that a complete run of fragments was cut from. -/
def rejoin? (codec : Codec) (start : Slot) (rest : List Slot) : Option Bytes :=
  match codec.rebuiltHeaderOctets? start.body, fragmentsData? codec (start :: rest) with
  | some header, some data => some (header ++ data)
  | _, _ => none

/-- What a run of fragments amounts to that starts with `start`. -/
def assembleRun (f : Format) (start : Slot) (rest : List Slot) : Outcome :=
  let (middles, behind) := splitMiddles start.seq rest
  match behind with
  | [] => .incomplete none
  | s :: _ =>
    if ¬ SeqNum.follows (lastSeq start middles) s.seq then .gap (1 + middles.length)
    else if s.placement ≠ .fragmentEnd then .broken (1 + middles.length)
    else
      match rejoin? f.codec start (middles ++ [s]) with
      | some unit =>
        .emitted (f.unitAt s.packet.timestamp (Avcc.record unit)) (2 + middles.length) s.seq
      | none => .dropped .shortFragment start.seq

/-- What an aggregation at the head amounts to. -/
def assembleAggregation (f : Format) (head : Slot) : Outcome :=
  let records := head.body.drop f.codec.aggregationSkip
  match Aggregation.widenedLength? records with
  | some _ => .emitted (f.unitAt head.packet.timestamp (Aggregation.widen records)) 1 head.seq
  | none => .dropped (.malformedAggregation records.length) head.seq

/-- What the head of the buffer amounts to. -/
def assemble (f : Format) : ReorderBuffer → Outcome
  | [] => .incomplete none
  | head :: rest =>
    match head.placement with
    | .single =>
      .emitted (f.unitAt head.packet.timestamp (Avcc.record head.body)) 1 head.seq
    | .aggregationStart | .aggregationMember => assembleAggregation f head
    | .fragmentStart => assembleRun f head rest
    | .fragmentMiddle | .fragmentEnd => .incomplete (some head)
    | .unknown => .dropped .unsupported head.seq

/-- Takes what the head of the buffer amounts to off the buffer. -/
def takeUnit (f : Format) (b : ReorderBuffer) : Outcome × ReorderBuffer :=
  let o := assemble f b
  (o, b.drop o.used)

end RtpReassembly
