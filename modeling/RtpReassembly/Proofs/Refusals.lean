import RtpReassembly.Proofs.Delivery

/-!
# Calls that are refused

A leg without a source of its own learns one from the first datagram that it
accepts, as a side effect of looking at it.  So it matters that every check comes
before: a datagram that is refused must not tie the leg to its sender, and a call
that is refused must not change anything else.

* `step_of_refusal`: a call that is refused only answers;
* `run_kept`: a run amounts to the calls in it that are not refused;
* `run_source`, `submissions_alike`: the one source of a leg, and its datagrams;
* `refusals_leave_no_trace` is the main statement.
-/

namespace RtpReassembly

namespace Receiver

/-- Whether a call was refused. -/
def Answer.isRefusal : Answer → Bool
  | .submitted (.error _) | .advanced (.error _) => true
  | .submitted (.ok _) | .advanced (.ok _) | .disposed => false

variable {r : Receiver}

/-- **A refusal is an answer and nothing else.** -/
theorem step_of_refusal {call : Call} (h : (r.step call).2.result.isRefusal) :
    r.step call = (r, { result := (r.step call).2.result }) := by
  cases call with
  | submit raw =>
      cases haccept : r.accept raw with
      | error e => simp [step, submit, haccept]
      | ok packet => simp [step, submit, haccept, Answer.isRefusal] at h
  | advance signal =>
      simp only [step, Receiver.advance, Gate.advance] at h ⊢
      split
      · rfl
      · split
        · rfl
        · simp_all [Answer.isRefusal]
  | dispose => simp [step, Answer.isRefusal] at h

/-- Calls beside their reactions, without those that are refused. -/
def kept (r : Receiver) (calls : List Call) : List (Call × Reaction Answer) :=
  (calls.zip (r.run calls).2).filter (!·.2.result.isRefusal)

/-- A call that is refused leaves the leg as it was, so the rest is kept as if it
had not been made. -/
theorem kept_cons_of_refusal {call : Call} (h : (r.step call).2.result.isRefusal)
    (calls : List Call) : r.kept (call :: calls) = r.kept calls := by
  simp [kept, run, h, congrArg Prod.fst (step_of_refusal h)]

theorem kept_cons {call : Call} (h : ¬ (r.step call).2.result.isRefusal) (calls : List Call) :
    r.kept (call :: calls) = (call, (r.step call).2) :: (r.step call).1.kept calls := by
  simp [kept, run, h]

/-- **A run is what is left of it without refusals.** -/
theorem run_kept (r : Receiver) (calls : List Call) :
    r.run ((r.kept calls).map Prod.fst) = ((r.run calls).1, (r.kept calls).map Prod.snd) := by
  induction calls generalizing r with
  | nil => rfl
  | cons call calls ih =>
      by_cases h : (r.step call).2.result.isRefusal
      · rw [kept_cons_of_refusal h, ih, run, congrArg Prod.fst (step_of_refusal h)]
      · simp [kept_cons h, run, ih]

/-- No unit comes with a refusal. -/
theorem units_kept (r : Receiver) (calls : List Call) :
    ((r.kept calls).map Prod.snd).flatMap Reaction.units =
      (r.run calls).2.flatMap Reaction.units := by
  induction calls generalizing r with
  | nil => rfl
  | cons call calls ih =>
      by_cases h : (r.step call).2.result.isRefusal
      · have hunits : (r.step call).2.units = [] :=
          congrArg (fun o => o.2.units) (step_of_refusal h)
        rw [kept_cons_of_refusal h, ih, run, List.flatMap_cons, hunits,
          congrArg Prod.fst (step_of_refusal h), List.nil_append]
      · simp [kept_cons h, run, ih]

/-- The source of the first of some submissions. -/
def firstSource (subs : List Submission) : Option UInt32 :=
  subs.head?.map (·.packet.header.ssrc)

/-- **The source of a leg** is the one that it had, or else that of the first
datagram accepted. -/
theorem run_source (r : Receiver) (calls : List Call) :
    (r.run calls).1.ssrc = r.ssrc.or (firstSource (r.submissions calls)) := by
  induction calls generalizing r with
  | nil => simp [run, submissions, firstSource]
  | cons call calls ih =>
      obtain ⟨next, answer, units, log, hstep, heffect⟩ := r.step_effect call
      simp only [run, submissions, ih, hstep]
      cases heffect with
      | refused _ | ignored | followed _ | ended _ | endedBefore _ => rfl
      | taken accepted _ =>
          obtain ⟨-, hdecode, -, hssrc⟩ := accept_eq_ok_iff.mp accepted
          cases hr : r.ssrc with
          | none => simp [submission?, hdecode, Except.toOption, firstSource]
          | some x => simp [hssrc x hr]

/-- What a leg asks for never changes. -/
theorem run_payloadType (r : Receiver) (calls : List Call) :
    (r.run calls).1.payloadType = r.payloadType := by
  induction calls generalizing r with
  | nil => rfl
  | cons call calls ih =>
      obtain ⟨next, answer, units, log, hstep, heffect⟩ := r.step_effect call
      simp only [run, ih, hstep]
      cases heffect <;> rfl

/-- **The datagrams of a leg** have the payload type asked for, if one is, and one
source. -/
theorem submissions_alike (r : Receiver) (calls : List Call) :
    ∀ s ∈ r.submissions calls,
      (∀ pt ∈ r.payloadType, pt = s.packet.header.payloadType) ∧
        r.ssrc.or (firstSource (r.submissions calls)) = some s.packet.header.ssrc := by
  induction calls generalizing r with
  | nil => simp [submissions]
  | cons call calls ih =>
      obtain ⟨next, answer, units, log, hstep, heffect⟩ := r.step_effect call
      simp only [submissions, hstep]
      cases heffect with
      | refused _ | ignored | followed _ | ended _ | endedBefore _ => exact ih _
      | @taken raw packet units accepted _ =>
          obtain ⟨-, hdecode, hpt, hssrc⟩ := accept_eq_ok_iff.mp accepted
          have hsource : ∀ o, r.ssrc.or (some packet.header.ssrc) =
              (some packet.header.ssrc).or o := by
            intro o
            cases hr : r.ssrc with
            | none => rfl
            | some x => simp [hssrc x hr]
          intro s hs
          simp only [submission?, hdecode, Except.toOption, Option.map_some, Option.toList_some,
            List.singleton_append, List.mem_cons, firstSource, List.head?_cons] at hs ⊢
          rcases hs with rfl | hs
          · exact ⟨hpt, hsource none⟩
          · obtain ⟨hpt', hsource'⟩ := ih _ s hs
            exact ⟨hpt', (hsource _).trans hsource'⟩

variable {config : LegConfig} {policy : Policy}

/-- **Refusals leave no trace.**  In any state of a leg a call that is refused
changes nothing, and delivers nothing.  So the calls of a run that are not
refused, made by themselves, have the same reactions, deliver the same units and
lead to the same state.  All datagrams accepted have the payload type that is
asked for, and one source, which is the one asked for or that of the first of
them; and a datagram is accepted exactly if the leg has not ended and the
datagram decodes to a packet with that payload type and that source. -/
theorem refusals_leave_no_trace (created : Receiver.create config policy = .ok r)
    (calls : List Call) :
    let final := (r.run calls).1
    let accepted := r.submissions calls
    let source := config.ssrc.or (firstSource accepted)
    (∀ call, (final.step call).2.result.isRefusal →
      (final.step call).1 = final ∧ (final.step call).2.units = []) ∧
    r.run ((r.kept calls).map Prod.fst) = (final, (r.kept calls).map Prod.snd) ∧
    ((r.kept calls).map Prod.snd).flatMap Reaction.units =
      (r.run calls).2.flatMap Reaction.units ∧
    final.ssrc = source ∧
    (∀ s ∈ accepted, (∀ pt ∈ config.payloadType, pt = s.packet.header.payloadType) ∧
      source = some s.packet.header.ssrc) ∧
    ∀ raw, (final.step (.submit raw)).2.result = .submitted (.ok ()) ↔
      .dispose ∉ calls ∧ ∃ packet, Rtp.Packet.decode raw = .ok packet ∧
        (∀ pt ∈ config.payloadType, pt = packet.header.payloadType) ∧
        ∀ x ∈ source, x = packet.header.ssrc := by
  intro final accepted source
  obtain ⟨-, hr⟩ := eq_of_create created
  have hpayloadType : r.payloadType = config.payloadType := by rw [hr]
  have hssrc : r.ssrc = config.ssrc := by rw [hr]
  have hgoing : r.gate.disposed = false := by rw [hr]
  have hsource : final.ssrc = source := by
    rw [run_source, hssrc]
  have halike := submissions_alike r calls
  rw [hpayloadType, hssrc] at halike
  refine ⟨?_, run_kept r calls, units_kept r calls, hsource, halike, ?_⟩
  · intro call h
    exact ⟨congrArg Prod.fst (step_of_refusal h),
      congrArg (fun o => o.2.units) (step_of_refusal h)⟩
  · -- of a leg, only its end, what it asks for and its source decide on a datagram
    intro raw
    have hdisposed : final.gate.disposed = false ↔ .dispose ∉ calls := by
      have hiff := run_disposed r calls
      rw [hgoing] at hiff
      rw [← Bool.not_eq_true]
      simpa using not_congr hiff
    have haccepts : (final.step (.submit raw)).2.result = .submitted (.ok ()) ↔
        ∃ packet, final.accept raw = .ok packet := by
      cases haccept : final.accept raw <;> simp [step, submit, haccept]
    simp only [haccepts, accept_eq_ok_iff, hdisposed, hsource, exists_and_left]
    rw [run_payloadType, hpayloadType]

/-- Nothing is learned from the source 9, whose datagrams have a foreign payload
type and a lying count of padding; 7 is learned, and 8 comes too late. -/
theorem refusals_leave_no_trace_learned :
    ∃ r calls, Receiver.create ⟨.h264, 90000, some 96, none⟩ {} = .ok r ∧
      calls = [.advance .playReceived, .advance .sdpReceived, .advance .playReceived,
        .submit (Rtp.Packet.simple 97 true 1 9000 9 [0x41]).raw,
        .submit [0xA0, 96, 0, 1, 0, 0, 0, 0, 0, 0, 0, 9, 0x41, 0],
        .submit (Rtp.Packet.simple 96 true 1 9000 7 [0x41]).raw,
        .submit (Rtp.Packet.simple 96 true 2 9000 8 [0x41]).raw, .advance .sdpReceived,
        .submit (Rtp.Packet.simple 96 true 2 9000 7 [0x42]).raw, .dispose,
        .submit (Rtp.Packet.simple 96 true 3 9000 7 [0x41]).raw] ∧
      (r.kept calls).map Prod.fst = [.advance .sdpReceived, .advance .playReceived,
        .submit (Rtp.Packet.simple 96 true 1 9000 7 [0x41]).raw,
        .submit (Rtp.Packet.simple 96 true 2 9000 7 [0x42]).raw, .dispose] ∧
      (r.run calls).1.ssrc = some 7 ∧
      (r.run calls).2.flatMap Reaction.units =
        [⟨.h264, 100, [0, 0, 0, 1, 0x41]⟩, ⟨.h264, 100, [0, 0, 0, 1, 0x42]⟩] ∧
      r.run ((r.kept calls).map Prod.fst) = ((r.run calls).1, (r.kept calls).map Prod.snd) :=
  ⟨_, _, rfl, rfl, by decide +kernel, by decide +kernel, by decide +kernel,
    (@refusals_leave_no_trace _ ⟨.h264, 90000, some 96, none⟩ {} rfl _).2.1⟩

end Receiver

end RtpReassembly
