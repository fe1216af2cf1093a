import RtpReassembly.Reassembler
import RtpReassembly.Gate

/-!
# Receivers

A receiver is one inbound leg of a session: datagrams go in, access units come
out while the session plays.  A datagram is accepted if it decodes, has the
payload type that is asked for, and comes from one source: the one that is
asked for, or else that of the first datagram accepted.  Whatever is refused
changes nothing.
-/

namespace RtpReassembly

/-- What an operation gives beside its new state. -/
structure Reaction (α : Type) where
  result : α
  /-- Units delivered, in order. -/
  units : List AccessUnit := []
  log : List Log.Entry := []

/-- Why a datagram is refused. -/
inductive SubmitError
  | malformed (cause : Rtp.DecodeError)
  | disposed
  | unexpectedPayloadType (payloadType : UInt8)
  | unexpectedSsrc (ssrc : UInt32)
  deriving DecidableEq, Repr

/-- A synchronization source in log entries and errors. -/
def describeSsrc (ssrc : UInt32) : String :=
  "0x" ++ String.ofList (Hex.padded 8 ssrc.toNat)

/-- The wording of a refusal. -/
def SubmitError.message : SubmitError → String
  | .malformed cause => s!"malformed RTP packet: {cause.message}"
  | .disposed => "receive leg already disposed"
  | .unexpectedPayloadType pt => s!"unexpected payload type {pt}"
  | .unexpectedSsrc ssrc => s!"unexpected SSRC {describeSsrc ssrc}"

/-- What a leg is to receive. -/
structure LegConfig where
  codec : Codec
  clockRate : UInt32
  /-- The payload type asked for; any, if none is. -/
  payloadType : Option UInt8 := none
  /-- The source asked for; that of the first datagram, if none is. -/
  ssrc : Option UInt32 := none
  deriving DecidableEq, Repr

/-- The state of a leg. -/
structure Receiver where
  payloadType : Option UInt8
  /-- The source asked for or learned. -/
  ssrc : Option UInt32
  reassembler : Reassembler
  gate : Gate := {}

namespace Receiver

/-- A leg that has received nothing. -/
def create (config : LegConfig) (policy : Policy) : Except ClockTooSlow Receiver :=
  match Reassembler.create config.codec config.clockRate policy with
  | .error e => .error e
  | .ok reassembler =>
    .ok { payloadType := config.payloadType, ssrc := config.ssrc, reassembler }

/-- The codec of the leg. -/
def codec (r : Receiver) : Codec :=
  r.reassembler.format.codec

/-- The counters of the leg. -/
def tally (r : Receiver) : Tally :=
  r.reassembler.tally

/-- An entry of the leg. -/
def remark (r : Receiver) (level : Log.Level) (text : String) : Log.Entry :=
  Log.Component.receiver.entry level (s!"[{r.codec.name}] " ++ text)

/-- The packet of a datagram, if the leg accepts it. -/
def accept (r : Receiver) (raw : Bytes) : Except SubmitError Rtp.Packet :=
  if r.gate.disposed then .error .disposed
  else
    match Rtp.Packet.decode raw with
    | .error e => .error (.malformed e)
    | .ok packet =>
      if r.payloadType.any (· != packet.header.payloadType) then
        .error (.unexpectedPayloadType packet.header.payloadType)
      else if r.ssrc.any (· != packet.header.ssrc) then
        .error (.unexpectedSsrc packet.header.ssrc)
      else .ok packet

/-- Brings the units among events to the gate, with what is logged on the way. -/
def deliver (r : Reassembler) (g : Gate) : List Event → Gate × List AccessUnit × List Log.Entry
  | [] => (g, [], [])
  | e :: es =>
    match e.unit? with
    | none =>
      let (g, units, log) := deliver r g es
      (g, units, r.remarks [e] ++ log)
    | some unit =>
      let (g, delivered, remarks) := g.forward unit
      let (g, units, log) := deliver r g es
      (g, delivered.toList ++ units, r.remarks [e] ++ remarks ++ log)

/-- Submits a datagram. -/
def submit (r : Receiver) (raw : Bytes) : Receiver × Reaction (Except SubmitError Unit) :=
  match r.accept raw with
  | .error e => (r, { result := .error e })
  | .ok packet =>
    let learned :=
      if r.ssrc.isSome then []
      else [r.remark .debug s!"learned remote SSRC {describeSsrc packet.header.ssrc}"]
    let (reassembler, events) := r.reassembler.feed packet
    let (gate, units, log) := deliver reassembler r.gate events
    ({ r with ssrc := some packet.header.ssrc, reassembler, gate },
      { result := .ok (), units, log := learned ++ log })

/-- Follows a signal of the negotiation. -/
def advance (r : Receiver) (signal : Signal) : Receiver × Reaction (Except StageError Stage) :=
  let (gate, result, log) := r.gate.advance signal
  ({ r with gate }, { result, log })

/-- Ends the leg: packets that wait are forgotten, and no unit is delivered
any more. -/
def dispose (r : Receiver) : Receiver × Reaction Unit :=
  if r.gate.disposed then (r, { result := () })
  else
    let t := r.tally
    ({ r with reassembler := r.reassembler.clear, gate := r.gate.dispose },
      { result := ()
        log := [r.remark .info (s!"receive leg disposed. packets={t.packets}, " ++
          s!"units={t.accessUnits}, forwarded={r.gate.forwarded}, lost={t.lost}")] })

/-- A call of a leg. -/
inductive Call
  | submit (raw : Bytes)
  | advance (signal : Signal)
  | dispose
  deriving DecidableEq, Repr

/-- The result of a call. -/
inductive Answer
  | submitted (result : Except SubmitError Unit)
  | advanced (result : Except StageError Stage)
  | disposed

/-- Makes one call. -/
def step (r : Receiver) : Call → Receiver × Reaction Answer
  | .submit raw =>
    let (r, reaction) := r.submit raw
    (r, { reaction with result := .submitted reaction.result })
  | .advance signal =>
    let (r, reaction) := r.advance signal
    (r, { reaction with result := .advanced reaction.result })
  | .dispose =>
    let (r, reaction) := r.dispose
    (r, { reaction with result := .disposed })

/-- Makes calls, one after the other. -/
def run (r : Receiver) : List Call → Receiver × List (Reaction Answer)
  | [] => (r, [])
  | call :: calls =>
    let first := r.step call
    let rest := run first.1 calls
    (rest.1, first.2 :: rest.2)

end Receiver

end RtpReassembly
