import RtpReassembly.Stage
import RtpReassembly.AccessUnit
import RtpReassembly.Log.Entry

/-!
# The delivery gate

A gate lets access units through while its session plays, and discards them
before.  Once disposed of it lets nothing through and follows no signal.
-/

namespace RtpReassembly

/-- The state of a gate. -/
structure Gate where
  stage : Stage := .awaitDescribe
  disposed : Bool := false
  /-- Units let through. -/
  forwarded : Nat := 0
  /-- Units discarded. -/
  discarded : Nat := 0
  deriving DecidableEq, Repr

namespace Gate

/-- Whether a unit would be let through. -/
def isReady (g : Gate) : Bool :=
  !g.disposed && g.stage.isPlaying

/-- An entry of the gate. -/
def remark (level : Log.Level) (text : String) : Log.Entry :=
  Log.Component.gate.entry level s!"[Session] {text}"

/-- Follows a signal. -/
def advance (g : Gate) (signal : Signal) : Gate × Except StageError Stage × List Log.Entry :=
  if g.disposed then (g, .error .disposed, [])
  else
    match g.stage.advance signal with
    | .error e => (g, .error e, [])
    | .ok next =>
      ({ g with stage := next }, .ok next,
        if next = g.stage then []
        else [remark .info s!"stage {g.stage.name} -> {next.name}"])

/-- Brings a unit to the gate. -/
def forward (g : Gate) (unit : AccessUnit) : Gate × Option AccessUnit × List Log.Entry :=
  if g.disposed then (g, none, [])
  else if g.stage.isPlaying then ({ g with forwarded := g.forwarded + 1 }, some unit, [])
  else
    ({ g with discarded := g.discarded + 1 }, none,
      [remark .debug s!"discarding unit while {g.stage.name}: {unit.describe}"])

/-- Closes the gate for good. -/
def dispose (g : Gate) : Gate :=
  { g with disposed := true }

end Gate

end RtpReassembly
