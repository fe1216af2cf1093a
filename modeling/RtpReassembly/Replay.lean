import RtpReassembly.Receiver
import RtpReassembly.Fingerprint
import RtpReassembly.Sdp.Description
import RtpReassembly.Capture.Source
import RtpReassembly.Table

/-!
# Replay of a capture

A session description in a capture sets up a leg for each payload type that
can be reassembled; every datagram then goes to the leg of its payload type.
A later description ends the legs of the one before it.  The summary counts
what has been found and fingerprints the units.
-/

namespace RtpReassembly

/-- Why a replay ends early. -/
inductive ReplayError
  | capture (cause : Capture.CaptureError)
  | description (cause : Sdp.SdpError)
  | clock (cause : ClockTooSlow)
  deriving DecidableEq, Repr

/-- The wording of an error. -/
def ReplayError.message : ReplayError → String
  | .capture cause => s!"replay: {cause.message}"
  | .description cause => s!"replay: bad session description: {cause.message}"
  | .clock cause => s!"replay: {cause.message}"

/-- What a replay has found. -/
structure Summary where
  records : Nat := 0
  rtpRecords : Nat := 0
  accessUnits : Nat := 0
  /-- Datagrams without a header, and those that their leg refused. -/
  parseErrors : Nat := 0
  /-- Datagrams of a payload type without a leg. -/
  ignored : Nat := 0
  /-- The counters of all legs together. -/
  tally : Tally := {}
  /-- The fingerprint of the units, in hexadecimal. -/
  sha256 : String := ""
  deriving DecidableEq, Repr

/-- The lines of a summary. -/
def Summary.render (s : Summary) : String :=
  let t := s.tally
  s!"records:       {s.records}\n" ++
  s!"rtp packets:   {s.rtpRecords}\n" ++
  s!"access units:  {s.accessUnits}\n" ++
  s!"parse errors:  {s.parseErrors}\n" ++
  s!"ignored:       {s.ignored}\n" ++
  s!"unpack:        stale={t.stale} dup={t.duplicates} dropped={t.dropped} " ++
  s!"abandoned={t.abandonedRuns} evicted={t.evicted} lost={t.lost}\n" ++
  s!"sha256:        {s.sha256}"

/-- The state of a replay. -/
structure Replay where
  policy : Policy
  /-- The legs by payload type. -/
  legs : Table UInt8 Receiver := []
  /-- The payload types that are described and cannot be reassembled. -/
  unsupported : List UInt8 := []
  fingerprint : Sha256.Running := {}
  /-- What has been found; counters of legs are added when they end. -/
  summary : Summary := {}

namespace Replay

/-- An entry of the replay. -/
def remark (level : Log.Level) (text : String) : Log.Entry :=
  Log.Component.replay.entry level s!"[Replay] {text}"

/-- Ends all legs. -/
def closeLegs (r : Replay) : Replay × List Log.Entry :=
  ({ r with
     legs := []
     unsupported := []
     summary := { r.summary with
       tally := r.summary.tally + Tally.sum (r.legs.map (fun (_, leg) => leg.tally)) } },
    r.legs.flatMap (fun (_, leg) => leg.dispose.2.log))

/-- A leg that plays, for a stream of a description. -/
def openLeg (policy : Policy) (stream : Sdp.VideoStream) :
    Except ClockTooSlow (Receiver × List Log.Entry) :=
  let config : LegConfig :=
    { codec := stream.codec, clockRate := stream.clockRate, payloadType := some stream.payloadType }
  match Receiver.create config policy with
  | .error e => .error e
  | .ok leg =>
    let (leg, described) := leg.advance .sdpReceived
    let (leg, played) := leg.advance .playReceived
    let control := stream.control.getD "-"
    .ok (leg, described.log ++ played.log ++
      [remark .info (s!"leg ready. pt={stream.payloadType}, codec={stream.codec.name}, " ++
        s!"clock={stream.clockRate}, control={control}")])

/-- Sets up the legs of streams, up to the first that cannot be.  A leg takes
the place of another of its payload type. -/
def openLegs (r : Replay) : List Sdp.VideoStream → List Log.Entry × Except ClockTooSlow Replay
  | [] => ([], .ok r)
  | stream :: streams =>
    match openLeg r.policy stream with
    | .error e => ([], .error e)
    | .ok (leg, log) =>
      let (more, result) := openLegs { r with legs := r.legs.put stream.payloadType leg } streams
      (log ++ more, result)

/-- Takes in a session description. -/
def addDescription (r : Replay) (body : Bytes) : List Log.Entry × Except ReplayError Replay :=
  match Sdp.Description.read (Utf8.decodeLossy body) with
  | .error e => ([], .error (.description e))
  | .ok d =>
    let (r, closed) := r.closeLegs
    match r.openLegs d.videoStreams with
    | (opened, .error e) => (closed ++ opened, .error (.clock e))
    | (opened, .ok r) =>
      let others := d.unsupportedStreams
      (closed ++ opened ++ others.map (fun s =>
          remark .info (s!"not reassembled. kind={s.kind.name}, pt={s.payloadType}, " ++
            s!"encoding={s.encoding}")),
        .ok { r with unsupported := others.map (fun s => s.payloadType) })

/-- Counts units and adds them to the fingerprint. -/
def emit (r : Replay) (units : List AccessUnit) : Replay :=
  { r with
    fingerprint := Fingerprint.addAll r.fingerprint units
    summary := { r.summary with accessUnits := r.summary.accessUnits + units.length } }

/-- Counts a datagram that is no packet or that was refused. -/
def countError (r : Replay) : Replay :=
  { r with summary := { r.summary with parseErrors := r.summary.parseErrors + 1 } }

/-- Counts a datagram that no leg is there for. -/
def countIgnored (r : Replay) : Replay :=
  { r with summary := { r.summary with ignored := r.summary.ignored + 1 } }

/-- Takes in a datagram. -/
def addDatagram (r : Replay) (body : Bytes) : Replay × List AccessUnit × List Log.Entry :=
  let r := { r with summary := { r.summary with rtpRecords := r.summary.rtpRecords + 1 } }
  match Rtp.Header.read body with
  | .error e => (r.countError, [], [remark .warning s!"bad RTP record: {e.message}"])
  | .ok (header, _) =>
    let pt := header.payloadType
    match r.legs.get? pt with
    | none =>
      (r.countIgnored, [],
        if r.unsupported.contains pt then [remark .debug s!"skipping pt={pt}"]
        else [remark .warning s!"unknown payload type. pt={pt}"])
    | some leg =>
      let (leg, reaction) := leg.submit body
      let r := { r with legs := r.legs.put pt leg }
      match reaction.result with
      | .ok () => (r.emit reaction.units, reaction.units, reaction.log)
      | .error e =>
        (r.countError, [], reaction.log ++
          [remark .warning s!"packet rejected. pt={pt}: {e.message}"])

/-- Takes in a record. -/
def addRecord (r : Replay) (record : Capture.Record) :
    Reaction (Except ReplayError Replay) :=
  let r := { r with summary := { r.summary with records := r.summary.records + 1 } }
  match record.kind with
  | .fileHeader => { result := .ok r }
  | .sdp =>
    let (log, result) := r.addDescription record.body
    { result, log }
  | .rtp =>
    let (r, units, log) := r.addDatagram record.body
    { result := .ok r, units, log }

/-- Takes in records, up to the first at which the replay ends. -/
def addRecords (r : Replay) : List Capture.Record → Reaction (Except ReplayError Replay)
  | [] => { result := .ok r }
  | record :: records =>
    let first := r.addRecord record
    match first.result with
    | .error e => { first with result := .error e }
    | .ok r =>
      let rest := addRecords r records
      { result := rest.result, units := first.units ++ rest.units, log := first.log ++ rest.log }

/-- The summary once no more comes. -/
def finish (r : Replay) : Summary × List Log.Entry :=
  let (r, log) := r.closeLegs
  ({ r.summary with sha256 := Hex.ofBytes r.fingerprint.finish }, log)

/-- Replays a capture. -/
def run (policy : Policy) (source : Capture.Source) : Reaction (Except ReplayError Summary) :=
  let (records, failure) := source.readAll
  let replayed := addRecords { policy } records
  match replayed.result, failure with
  | .error e, _ => { replayed with result := .error e }
  | .ok _, some e => { replayed with result := .error (.capture e) }
  | .ok r, none =>
    let (summary, log) := r.finish
    { replayed with result := .ok summary, log := replayed.log ++ log }

end Replay

end RtpReassembly
