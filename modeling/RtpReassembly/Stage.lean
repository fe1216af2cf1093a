/-!
# Negotiation stages

A session goes from waiting for its description over a description that was
sent to playing, and never back.
-/

namespace RtpReassembly

/-- How far a session has been negotiated. -/
inductive Stage
  | awaitDescribe
  | sdpSent
  | playing
  deriving DecidableEq, Repr

/-- What the peer does. -/
inductive Signal
  /-- A description of the session is there. -/
  | sdpReceived
  /-- Playing is asked for. -/
  | playReceived
  deriving DecidableEq, Repr

/-- The name of a stage. -/
def Stage.name : Stage → String
  | .awaitDescribe => "await-describe"
  | .sdpSent => "sdp-sent"
  | .playing => "playing"

/-- The name of a signal. -/
def Signal.name : Signal → String
  | .sdpReceived => "sdp-received"
  | .playReceived => "play-received"

/-- Why a signal is refused. -/
inductive StageError
  | invalidTransition (origin : Stage) (signal : Signal)
  | disposed
  deriving DecidableEq, Repr

/-- The wording of a refusal. -/
def StageError.message : StageError → String
  | .invalidTransition origin signal =>
    s!"invalid stage transition: {signal.name} while {origin.name}"
  | .disposed => "receive leg already disposed"

namespace Stage

/-- Whether units may go out. -/
def isPlaying (s : Stage) : Bool :=
  s == .playing

/-- The stage after a signal. -/
def advance : Stage → Signal → Except StageError Stage
  | .awaitDescribe, .sdpReceived => .ok .sdpSent
  | .sdpSent, .sdpReceived => .ok .sdpSent
  | .sdpSent, .playReceived => .ok .playing
  | .playing, .playReceived => .ok .playing
  | origin, signal => .error (.invalidTransition origin signal)

end Stage

end RtpReassembly
