import RtpReassembly.Proofs.RoundTrip
import RtpReassembly.Proofs.Whereabouts

/-!
# What a leg delivers

Datagrams, signals and the end of a leg come in any order.  A leg reassembles in
every stage and delivers in one, so one datagram can bring out units whose
packets came long before; whether they are delivered depends on the stage when
that datagram comes, and on nothing else.

* `Effect` has one constructor for each thing that a call does, and `step_effect`
  says that calls do nothing else;
* `submissions` and `signals` are the datagrams accepted and the signals followed
  in a run, and `Reassembler.yields` is what a reassembler by itself makes of the
  former;
* `run_delivered`, `run_counts`, `run_playing`, `run_disposed`: what is delivered
  and counted, and when a leg plays;
* `delivers_while_playing` is the main statement.
-/

namespace RtpReassembly

namespace Stage

/-- How far a stage is. -/
def rank : Stage → Nat
  | .awaitDescribe => 0
  | .sdpSent => 1
  | .playing => 2

/-- The signals that must come, one after the other, before units go out. -/
def missing : Stage → List Signal
  | .awaitDescribe => [.sdpReceived, .playReceived]
  | .sdpSent => [.playReceived]
  | .playing => []

/-- A stage plays exactly when no signal is missing. -/
theorem isPlaying_iff (s : Stage) : s.isPlaying ↔ s.missing = [] := by
  cases s <;> decide

/-- No signal leads back. -/
theorem rank_le_of_advance {s next : Stage} {signal : Signal} (h : s.advance signal = .ok next) :
    s.rank ≤ next.rank := by
  cases s <;> cases signal <;> simp only [advance, Except.ok.injEq, reduceCtorEq] at h <;>
    subst h <;> decide

/-- A signal that is followed is the first one missing, or changes nothing. -/
theorem missing_of_advance {s next : Stage} {signal : Signal} (h : s.advance signal = .ok next)
    (later : List Signal) :
    next.missing.Sublist later ↔ s.missing.Sublist (signal :: later) := by
  cases s <;> cases signal <;> simp only [advance, Except.ok.injEq, reduceCtorEq] at h <;>
    subst h <;> simp [missing]

end Stage

namespace Gate

/-- The gate after `n` units came to it, none of them after its end. -/
def pass (g : Gate) (n : Nat) : Gate :=
  if g.isReady then { g with forwarded := g.forwarded + n }
  else { g with discarded := g.discarded + n }

@[simp] theorem stage_pass (g : Gate) (n : Nat) : (g.pass n).stage = g.stage := by
  unfold pass
  split <;> rfl

@[simp] theorem disposed_pass (g : Gate) (n : Nat) : (g.pass n).disposed = g.disposed := by
  unfold pass
  split <;> rfl

@[simp] theorem isReady_pass (g : Gate) (n : Nat) : (g.pass n).isReady = g.isReady := by
  simp [isReady]

@[simp] theorem forwarded_pass (g : Gate) (n : Nat) :
    (g.pass n).forwarded = g.forwarded + if g.isReady then n else 0 := by
  unfold pass
  split <;> rfl

@[simp] theorem discarded_pass (g : Gate) (n : Nat) :
    (g.pass n).discarded = g.discarded + if g.isReady then 0 else n := by
  unfold pass
  split <;> rfl

theorem pass_zero (g : Gate) : g.pass 0 = g := by
  unfold pass
  split <;> rfl

theorem pass_pass (g : Gate) (m n : Nat) : (g.pass m).pass n = g.pass (m + n) := by
  cases h : g.isReady <;> rw [pass, isReady_pass] <;> simp [pass, h, Nat.add_assoc]

/-- A unit that comes to a gate before its end is passed, and goes out if the gate
is ready. -/
theorem forward_eq {g : Gate} (h : g.disposed = false) (unit : AccessUnit) :
    (g.forward unit).1 = g.pass 1 ∧
      (g.forward unit).2.1 = if g.isReady then some unit else none := by
  cases hplaying : g.stage.isPlaying <;> simp [forward, pass, isReady, h, hplaying]

end Gate

/-- The units that come of one packet. -/
def Reassembler.unitsOf (r : Reassembler) (packet : Rtp.Packet) : List AccessUnit :=
  (r.feed packet).2.filterMap Event.unit?

/-- A datagram that was accepted. -/
structure Submission where
  packet : Rtp.Packet
  /-- Whether the leg played, and had not ended, when it came. -/
  ready : Bool
  deriving DecidableEq, Repr

/-- Submissions, each with the units that a reassembler by itself gives with it. -/
def Reassembler.yields (bare : Reassembler) :
    List Submission → List (Submission × List AccessUnit)
  | [] => []
  | s :: rest => (s, bare.unitsOf s.packet) :: yields (bare.feed s.packet).1 rest

/-- The units that come while a leg is ready. -/
def delivered (yields : List (Submission × List AccessUnit)) : List AccessUnit :=
  (yields.filter (·.1.ready)).flatMap Prod.snd

/-- The units that come while it is not. -/
def withheld (yields : List (Submission × List AccessUnit)) : List AccessUnit :=
  (yields.filter (!·.1.ready)).flatMap Prod.snd

@[simp] theorem delivered_cons (s : Submission) (units : List AccessUnit)
    (rest : List (Submission × List AccessUnit)) :
    delivered ((s, units) :: rest) = (if s.ready then units else []) ++ delivered rest := by
  cases h : s.ready <;> simp [delivered, h]

@[simp] theorem withheld_cons (s : Submission) (units : List AccessUnit)
    (rest : List (Submission × List AccessUnit)) :
    withheld ((s, units) :: rest) = (if s.ready then [] else units) ++ withheld rest := by
  cases h : s.ready <;> simp [withheld, h]

/-- Together the units are those of a run. -/
theorem Reassembler.flatMap_yields (bare : Reassembler) (subs : List Submission) :
    (bare.yields subs).flatMap Prod.snd =
      (bare.run (subs.map (.packet ·.packet))).2.filterMap Event.unit? := by
  induction subs generalizing bare with
  | nil => rfl
  | cons s rest ih => simp [yields, run, step, unitsOf, ih]

namespace Receiver

/-- The submission that a call was, if it was one and was accepted. -/
def submission? (ready : Bool) : Call → Answer → Option Submission
  | .submit raw, .submitted (.ok ()) =>
    (Rtp.Packet.decode raw).toOption.map fun packet => { packet, ready }
  | _, _ => none

/-- The signal that a call brought, if it was followed. -/
def signal? : Call → Answer → Option Signal
  | .advance signal, .advanced (.ok _) => some signal
  | _, _ => none

/-- The datagrams that are accepted among calls. -/
def submissions (r : Receiver) : List Call → List Submission
  | [] => []
  | call :: calls =>
    (submission? r.gate.isReady call (r.step call).2.result).toList ++
      submissions (r.step call).1 calls

/-- The signals that are followed among calls. -/
def signals (r : Receiver) : List Call → List Signal
  | [] => []
  | call :: calls =>
    (signal? call (r.step call).2.result).toList ++ signals (r.step call).1 calls

/-- The answer of a leg that has ended. -/
def Call.whenDisposed : Call → Answer
  | .submit _ => .submitted (.error .disposed)
  | .advance _ => .advanced (.error .disposed)
  | .dispose => .disposed

variable {r : Receiver} {raw : Bytes} {packet : Rtp.Packet}

/-- What is asked for, if anything is, agrees. -/
theorem any_ne_eq_false_iff {α : Type} [DecidableEq α] {o : Option α} {a : α} :
    o.any (· != a) = false ↔ ∀ x ∈ o, x = a := by
  cases o <;> simp

/-- **Which datagrams are accepted.** -/
theorem accept_eq_ok_iff :
    r.accept raw = .ok packet ↔
      r.gate.disposed = false ∧ Rtp.Packet.decode raw = .ok packet ∧
        (∀ pt ∈ r.payloadType, pt = packet.header.payloadType) ∧
        (∀ x ∈ r.ssrc, x = packet.header.ssrc) := by
  rw [← any_ne_eq_false_iff, ← any_ne_eq_false_iff]
  unfold accept
  cases r.gate.disposed with
  | true => simp
  | false =>
      cases Rtp.Packet.decode raw with
      | error e => simp
      | ok decoded =>
          simp only [Bool.false_eq_true, if_false, true_and, Except.ok.injEq]
          constructor
          · intro h
            split at h
            · simp at h
            · split at h
              · simp at h
              · obtain rfl := Except.ok.inj h
                simp_all
          · rintro ⟨rfl, hpt, hssrc⟩
            simp [hpt, hssrc]

/-- Bringing units to a gate that is not disposed of. -/
theorem deliver_eq (reassembler : Reassembler) {g : Gate} (h : g.disposed = false)
    (events : List Event) :
    (deliver reassembler g events).1 = g.pass (events.filterMap Event.unit?).length ∧
      (deliver reassembler g events).2.1 =
        if g.isReady then events.filterMap Event.unit? else [] := by
  induction events generalizing g with
  | nil => simp [deliver, Gate.pass_zero]
  | cons e events ih =>
      cases hunit : e.unit? with
      | none => simpa [deliver, hunit] using ih h
      | some unit =>
          obtain ⟨hgate, hunits⟩ := Gate.forward_eq h unit
          obtain ⟨hrest, hmore⟩ := @ih (g.pass 1) (by simpa using h)
          simp only [deliver, hunit, hgate, hunits, hrest, hmore, List.filterMap_cons,
            List.length_cons, Gate.pass_pass, Gate.isReady_pass]
          refine ⟨by rw [Nat.add_comm], ?_⟩
          split <;> rfl

/-- What a call does to a leg, what is logged apart. -/
inductive Effect (r : Receiver) : Call → Receiver → Answer → List AccessUnit → Prop
  /-- A datagram is refused. -/
  | refused {raw : Bytes} {e : SubmitError} (cause : r.accept raw = .error e) :
      Effect r (.submit raw) r (.submitted (.error e)) []
  /-- A datagram is accepted. -/
  | taken {raw : Bytes} {packet : Rtp.Packet} {units : List AccessUnit}
      (accepted : r.accept raw = .ok packet)
      (delivers : units = if r.gate.isReady then r.reassembler.unitsOf packet else []) :
      Effect r (.submit raw)
        { r with
          ssrc := some packet.header.ssrc
          reassembler := (r.reassembler.feed packet).1
          gate := r.gate.pass (r.reassembler.unitsOf packet).length }
        (.submitted (.ok ())) units
  /-- A signal is refused. -/
  | ignored {signal : Signal} {e : StageError} :
      Effect r (.advance signal) r (.advanced (.error e)) []
  /-- A signal is followed. -/
  | followed {signal : Signal} {next : Stage} (legal : r.gate.stage.advance signal = .ok next) :
      Effect r (.advance signal) { r with gate := { r.gate with stage := next } }
        (.advanced (.ok next)) []
  /-- The leg ends. -/
  | ended (going : r.gate.disposed = false) :
      Effect r .dispose { r with reassembler := r.reassembler.clear, gate := r.gate.dispose }
        .disposed []
  /-- The leg had ended. -/
  | endedBefore (closed : r.gate.disposed = true) : Effect r .dispose r .disposed []

/-- **Calls do nothing else.** -/
theorem step_effect (r : Receiver) (call : Call) :
    ∃ next answer units log, r.step call = (next, { result := answer, units, log }) ∧
      Effect r call next answer units := by
  cases call with
  | submit raw =>
      cases haccept : r.accept raw with
      | error e =>
          simp only [step, submit, haccept]
          exact ⟨_, _, _, _, rfl, .refused haccept⟩
      | ok packet =>
          obtain ⟨hgate, hunits⟩ := deliver_eq (r.reassembler.feed packet).1
            (accept_eq_ok_iff.mp haccept).1 (r.reassembler.feed packet).2
          simp only [step, submit, haccept, hgate]
          exact ⟨_, _, _, _, rfl, .taken haccept hunits⟩
  | advance signal =>
      simp only [step, Receiver.advance, Gate.advance]
      split
      · exact ⟨_, _, _, _, rfl, .ignored⟩
      · split
        · exact ⟨_, _, _, _, rfl, .ignored⟩
        · rename_i legal
          exact ⟨_, _, _, _, rfl, .followed legal⟩
  | dispose =>
      simp only [step, dispose]
      split
      · rename_i closed
        exact ⟨_, _, _, _, rfl, .endedBefore closed⟩
      · rename_i going
        exact ⟨_, _, _, _, rfl, .ended (by simpa using going)⟩

/-- A leg that has ended refuses every call. -/
theorem step_of_disposed (closed : r.gate.disposed = true) (call : Call) :
    r.step call = (r, { result := call.whenDisposed }) := by
  cases call <;>
    simp [step, submit, accept, Receiver.advance, Gate.advance, dispose, closed, Call.whenDisposed]

theorem run_append (r : Receiver) (front back : List Call) :
    r.run (front ++ back) =
      (((r.run front).1.run back).1, (r.run front).2 ++ ((r.run front).1.run back).2) := by
  induction front generalizing r with
  | nil => simp [run]
  | cons call front ih => simp [run, ih]

/-- **What is delivered** is what a reassembler by itself gives while the leg is
ready. -/
theorem run_delivered {bare : Reassembler}
    (same : r.gate.disposed = false → r.reassembler = bare) (calls : List Call) :
    (r.run calls).2.flatMap Reaction.units = delivered (bare.yields (r.submissions calls)) := by
  induction calls generalizing r bare with
  | nil => rfl
  | cons call calls ih =>
      obtain ⟨next, answer, units, log, hstep, heffect⟩ := r.step_effect call
      simp only [run, submissions, List.flatMap_cons, hstep]
      cases heffect with
      | refused _ | ignored | followed _ | endedBefore _ => exact ih same
      -- a leg that ends forgets what waits, so it parts from the reassembler by itself
      | ended _ => exact ih (by simp [Gate.dispose])
      | taken accepted delivers =>
          obtain ⟨hgoing, hdecode, -, -⟩ := accept_eq_ok_iff.mp accepted
          obtain rfl := same hgoing
          simp only [submission?, hdecode, Except.toOption, Option.map_some, Option.toList_some,
            List.singleton_append, Reassembler.yields, delivered_cons, delivers,
            ih (fun _ => rfl)]

/-- **What is counted.** -/
theorem run_counts {bare : Reassembler}
    (same : r.gate.disposed = false → r.reassembler = bare) (calls : List Call) :
    let yields := bare.yields (r.submissions calls)
    let final := (r.run calls).1
    final.gate.forwarded = r.gate.forwarded + (delivered yields).length ∧
      final.gate.discarded = r.gate.discarded + (withheld yields).length ∧
      final.tally.accessUnits =
        r.tally.accessUnits + (delivered yields).length + (withheld yields).length := by
  -- until it ends, a leg has the bare reassembler in it; after that it accepts nothing
  induction calls generalizing r bare with
  | nil => exact ⟨rfl, rfl, rfl⟩
  | cons call calls ih =>
      obtain ⟨next, answer, units, log, hstep, heffect⟩ := r.step_effect call
      simp only [run, submissions, hstep]
      cases heffect with
      | refused _ | ignored | followed _ | endedBefore _ => exact ih same
      | ended _ => exact ih (by simp [Gate.dispose])
      | @taken raw packet units accepted _ =>
          obtain ⟨hgoing, hdecode, -, -⟩ := accept_eq_ok_iff.mp accepted
          obtain rfl := same hgoing
          have htally : (r.reassembler.feed packet).1.tally.accessUnits =
              r.reassembler.tally.accessUnits + (r.reassembler.unitsOf packet).length :=
            Tally.recordAll_accessUnits _ _
          obtain ⟨hforwarded, hdiscarded, hunits⟩ := @ih
            { r with
              ssrc := some packet.header.ssrc
              reassembler := (r.reassembler.feed packet).1
              gate := r.gate.pass (r.reassembler.unitsOf packet).length } _ (fun _ => rfl)
          simp only [submission?, hdecode, Except.toOption, Option.map_some, Option.toList_some,
            List.singleton_append, Reassembler.yields, delivered_cons, withheld_cons,
            List.length_append, Gate.forwarded_pass, Gate.discarded_pass, tally]
            at hforwarded hdiscarded hunits ⊢
          cases hready : r.gate.isReady <;>
            simp only [hready, if_true, if_false, Bool.false_eq_true, List.length_nil]
              at hforwarded hdiscarded hunits ⊢ <;> omega

/-- **When a leg plays.** -/
theorem run_playing (r : Receiver) (calls : List Call) :
    (r.run calls).1.gate.stage.isPlaying ↔ r.gate.stage.missing.Sublist (r.signals calls) := by
  induction calls generalizing r with
  | nil => simpa [run, signals] using r.gate.stage.isPlaying_iff
  | cons call calls ih =>
      obtain ⟨next, answer, units, log, hstep, heffect⟩ := r.step_effect call
      simp only [run, signals, hstep]
      rw [ih next]
      cases heffect with
      | refused _ | ignored | ended _ | endedBefore _ => rfl
      | taken _ _ => simp [signal?]
      | followed legal => exact Stage.missing_of_advance legal _

/-- The stage never moves back. -/
theorem rank_le_run (r : Receiver) (calls : List Call) :
    r.gate.stage.rank ≤ (r.run calls).1.gate.stage.rank := by
  induction calls generalizing r with
  | nil => exact Nat.le_refl _
  | cons call calls ih =>
      obtain ⟨next, answer, units, log, hstep, heffect⟩ := r.step_effect call
      refine Nat.le_trans ?_ (ih (r.step call).1)
      rw [hstep]
      cases heffect with
      | refused _ | ignored | ended _ | endedBefore _ => exact Nat.le_refl _
      | taken _ _ => simp
      | followed legal => exact Stage.rank_le_of_advance legal

/-- **When a leg has ended.** -/
theorem run_disposed (r : Receiver) (calls : List Call) :
    (r.run calls).1.gate.disposed ↔ r.gate.disposed ∨ .dispose ∈ calls := by
  induction calls generalizing r with
  | nil => simp [run]
  | cons call calls ih =>
      obtain ⟨next, answer, units, log, hstep, heffect⟩ := r.step_effect call
      simp only [run, ih, hstep, List.mem_cons]
      cases heffect with
      | refused _ | ignored | followed _ => simp
      | taken _ _ => simp
      | ended _ => simp [Gate.dispose]
      | endedBefore closed => simp [closed]

/-- What a leg does that has ended. -/
theorem run_of_disposed (closed : r.gate.disposed) (calls : List Call) :
    r.run calls = (r, calls.map fun call => { result := call.whenDisposed }) := by
  induction calls with
  | nil => rfl
  | cons call calls ih => simp [run, step_of_disposed closed, ih]

variable {config : LegConfig} {policy : Policy}

/-- **A leg delivers what comes while it plays, and nothing else.**  A reassembler
by itself is given the packets of the datagrams that a new leg accepts, among
calls of any kind in any order.  The units that it gives while the leg plays and
has not ended are delivered, in order, and those that it gives before are
withheld for good; the leg counts both.  It is ready once a description and then
a play signal were followed, unless it has ended; its stage never moves back; and
once it has ended each further call is refused and changes nothing. -/
theorem delivers_while_playing (created : Receiver.create config policy = .ok r)
    (calls : List Call) :
    ∃ bare, Reassembler.create config.codec config.clockRate policy = .ok bare ∧
      let final := (r.run calls).1
      let units := (r.run calls).2.flatMap Reaction.units
      let accepted := r.submissions calls
      let yields := bare.yields accepted
      yields.flatMap Prod.snd =
        (bare.run (accepted.map (.packet ·.packet))).2.filterMap Event.unit? ∧
      units = delivered yields ∧
      final.gate.forwarded = units.length ∧
      final.gate.discarded = (withheld yields).length ∧
      final.tally.accessUnits = final.gate.forwarded + final.gate.discarded ∧
      (final.gate.isReady ↔
        .dispose ∉ calls ∧ [.sdpReceived, .playReceived].Sublist (r.signals calls)) ∧
      (∀ front back, calls = front ++ back →
        (r.run front).1.gate.stage.rank ≤ final.gate.stage.rank) ∧
      (.dispose ∈ calls → ∀ later, final.run later =
        (final, later.map fun call => { result := call.whenDisposed })) := by
  obtain ⟨hclock, hr⟩ := eq_of_create created
  refine ⟨_, Reassembler.create_eq_ok hclock, ?_⟩
  intro final units accepted yields
  have same : r.gate.disposed = false → r.reassembler =
      { format := .ofClockRate config.codec config.clockRate, policy } := by
    rw [hr]
    exact fun _ => rfl
  have hgate : r.gate = {} := by rw [hr]
  have htally : r.tally = {} := by rw [hr]; rfl
  have hunits : units = delivered yields := run_delivered same calls
  obtain ⟨hforwarded, hdiscarded, hcounted⟩ := run_counts same calls
  have hdisposed := run_disposed r calls
  simp only [hgate, htally, Nat.zero_add, Bool.false_eq_true, false_or]
    at hforwarded hdiscarded hcounted hdisposed
  refine ⟨Reassembler.flatMap_yields _ _, hunits, ?_, hdiscarded, ?_, ?_, ?_, ?_⟩
  · rw [hunits, hforwarded]
  · rw [hcounted, hforwarded, hdiscarded]
  · have hplaying := run_playing r calls
    rw [hgate] at hplaying
    rw [Gate.isReady, Bool.and_eq_true, hplaying, Bool.not_eq_true', ← Bool.not_eq_true, hdisposed]
    rfl
  · rintro front back rfl
    have hrank := rank_le_run (r.run front).1 back
    rwa [← congrArg Prod.fst (run_append r front back)] at hrank
  · exact fun closed => run_of_disposed (hdisposed.mpr closed)

/-- A unit is withheld at once; the next two, whose packets came before the leg
plays, wait for a fragment and are delivered with it; one more waits in vain. -/
theorem delivers_while_playing_late :
    ∃ r calls bare, Receiver.create { codec := .h264, clockRate := 90000 } {} = .ok r ∧
      calls = [.submit (Rtp.Packet.simple 96 true 1 9000 1 [0x41]).raw,
        .advance .playReceived, .advance .sdpReceived,
        .submit (Rtp.Packet.simple 96 false 2 9000 1 [0x7C, 0x85, 0xA0]).raw,
        .submit (Rtp.Packet.simple 96 true 4 18000 1 [0x41, 0x9A]).raw,
        .advance .playReceived, .submit [0x80, 0x60],
        .submit (Rtp.Packet.simple 96 true 3 9000 1 [0x7C, 0x45, 0xC0]).raw,
        .advance .sdpReceived, .submit (Rtp.Packet.simple 96 true 6 27000 1 [0x41]).raw,
        .dispose, .submit (Rtp.Packet.simple 96 true 5 27000 1 [0x41]).raw,
        .advance .playReceived] ∧
      Reassembler.create .h264 90000 {} = .ok bare ∧
      (r.run calls).2.flatMap Reaction.units = delivered (bare.yields (r.submissions calls)) ∧
      (r.run calls).2.flatMap Reaction.units =
        [⟨.h264, 100, [0, 0, 0, 3, 0x65, 0xA0, 0xC0]⟩, ⟨.h264, 200, [0, 0, 0, 2, 0x41, 0x9A]⟩] ∧
      r.signals calls = [.sdpReceived, .playReceived] ∧
      (r.run calls).1.gate = ⟨.playing, true, 2, 1⟩ := by
  obtain ⟨bare, hbare, -, hunits, -⟩ := @delivers_while_playing _
    { codec := .h264, clockRate := 90000 } {} rfl
    [.submit (Rtp.Packet.simple 96 true 1 9000 1 [0x41]).raw,
      .advance .playReceived, .advance .sdpReceived,
      .submit (Rtp.Packet.simple 96 false 2 9000 1 [0x7C, 0x85, 0xA0]).raw,
      .submit (Rtp.Packet.simple 96 true 4 18000 1 [0x41, 0x9A]).raw,
      .advance .playReceived, .submit [0x80, 0x60],
      .submit (Rtp.Packet.simple 96 true 3 9000 1 [0x7C, 0x45, 0xC0]).raw,
      .advance .sdpReceived, .submit (Rtp.Packet.simple 96 true 6 27000 1 [0x41]).raw,
      .dispose, .submit (Rtp.Packet.simple 96 true 5 27000 1 [0x41]).raw,
      .advance .playReceived]
  exact ⟨_, _, bare, rfl, rfl, hbare, hunits, by decide +kernel, by decide +kernel,
    by decide +kernel⟩

end Receiver

end RtpReassembly
