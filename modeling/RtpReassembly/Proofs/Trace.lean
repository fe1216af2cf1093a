import RtpReassembly.Reassembler
import RtpReassembly.Proofs.Moves
import Mathlib.Data.List.Perm.Subperm

/-!
# Traces of a reassembler

A reassembler is given packets and clearings in any order.  A `Trace` leads to
a state and keeps what belongs to the stretch since the last clearing: the
packets fed, and what happened to them.

* `Trace.exists_run`, `exists_trace_of_run`: traces are the runs of
  `Reassembler.run`, and nothing else;
* `Trace.feedAll_eq`: the window depends on the stretch alone;
* `Trace.subperm`: no packet is in two places.
-/

namespace RtpReassembly

/-- Feeds packets, one after the other. -/
def Window.feedAll (p : Policy) (f : Format) (w : Window) :
    List Rtp.Packet → Window × List Event
  | [] => (w, [])
  | packet :: rest =>
    let first := w.feed p f packet
    let last := feedAll p f first.1 rest
    (last.1, first.2 ++ last.2)

/-- Two stretches of packets are fed one after the other. -/
theorem Window.feedAll_append {p : Policy} {f : Format} (w : Window)
    (front back : List Rtp.Packet) :
    w.feedAll p f (front ++ back) =
      (((w.feedAll p f front).1.feedAll p f back).1,
        (w.feedAll p f front).2 ++ ((w.feedAll p f front).1.feedAll p f back).2) := by
  induction front generalizing w with
  | nil => simp [feedAll]
  | cons packet front ih => simp [feedAll, ih, List.append_assoc]

/-- The last packet is fed to the window behind all others. -/
theorem Window.feedAll_concat {p : Policy} {f : Format} (w : Window)
    (fed : List Rtp.Packet) (packet : Rtp.Packet) :
    w.feedAll p f (fed ++ [packet]) =
      (((w.feedAll p f fed).1.feed p f packet).1,
        (w.feedAll p f fed).2 ++ ((w.feedAll p f fed).1.feed p f packet).2) := by
  simp [feedAll_append, feedAll]

/-- Once a number was consumed, no packet makes the window forget it. -/
theorem Window.isSome_consumed_feedAll {p : Policy} {f : Format} {w : Window}
    (h : w.consumed.isSome) (fed : List Rtp.Packet) :
    (w.feedAll p f fed).1.consumed.isSome := by
  induction fed generalizing w with
  | nil => exact h
  | cons packet fed ih => exact ih ((feed_feeding w packet).isSome_consumed h)

namespace Reassembler

/-- Two stretches of calls are run one after the other. -/
theorem run_append (r : Reassembler) (front back : List Input) :
    r.run (front ++ back) =
      (((r.run front).1.run back).1, (r.run front).2 ++ ((r.run front).1.run back).2) := by
  induction front generalizing r with
  | nil => simp [run]
  | cons input front ih => simp [run, ih, List.append_assoc]

variable (codec : Codec) (clockRate : UInt32) (policy : Policy)

/-- `Trace codec clockRate policy r fed events`: a run leads to `r`, and since
it was last cleared, or created, `fed` came in and `events` happened. -/
inductive Trace : Reassembler → List Rtp.Packet → List Event → Prop
  | start {r : Reassembler} (created : Reassembler.create codec clockRate policy = .ok r) :
      Trace r [] []
  | feed {r : Reassembler} {fed : List Rtp.Packet} {events : List Event}
      (packet : Rtp.Packet) (trace : Trace r fed events) :
      Trace (r.feed packet).1 (fed ++ [packet]) (events ++ (r.feed packet).2)
  | clear {r : Reassembler} {fed : List Rtp.Packet} {events : List Event}
      (trace : Trace r fed events) : Trace r.clear [] []

variable {codec clockRate policy}
variable {r : Reassembler} {fed : List Rtp.Packet} {events : List Event}

/-- A reassembler can be created for any clock that tells milliseconds. -/
theorem create_eq_ok (h : 1000 ≤ clockRate) :
    create codec clockRate policy =
      .ok { format := Format.ofClockRate codec clockRate, policy } := by
  have hnot : ¬ clockRate < 1000 := UInt32.not_lt.mpr h
  simp [create, hnot]

/-- A reassembler that was created is a fresh one, and its clock has a whole tick
in each millisecond. -/
theorem eq_of_create (h : create codec clockRate policy = .ok r) :
    1000 ≤ clockRate ∧ r = { format := Format.ofClockRate codec clockRate, policy } := by
  unfold create at h
  split at h
  · simp at h
  · rename_i hnot
    exact ⟨UInt32.not_lt.mp hnot, (Except.ok.inj h).symm⟩

/-- A clock that tells milliseconds has a tick in each. -/
theorem ofClockRate_toMs (h : 1000 ≤ clockRate) (timestamp : UInt32) :
    (Format.ofClockRate codec clockRate).toMs timestamp =
      UInt64.ofNat (timestamp.toNat / (clockRate.toNat / 1000)) := by
  have hle : 1000 ≤ clockRate.toNat := by
    simpa using UInt32.le_iff_toNat_le.mp h
  have hmax : max 1 (clockRate.toNat / 1000) = clockRate.toNat / 1000 := by omega
  simp only [Format.toMs, Format.ofClockRate, hmax]

/-- A trace leads to where a run leads. -/
theorem Trace.exists_run (t : Trace codec clockRate policy r fed events) :
    ∃ r₀ inputs, create codec clockRate policy = .ok r₀ ∧ (r₀.run inputs).1 = r := by
  induction t with
  | start created => exact ⟨_, [], created, rfl⟩
  | feed packet _ ih =>
      obtain ⟨r₀, inputs, hcreate, rfl⟩ := ih
      exact ⟨r₀, inputs ++ [.packet packet], hcreate, by simp [run_append, run, step]⟩
  | clear _ ih =>
      obtain ⟨r₀, inputs, hcreate, rfl⟩ := ih
      exact ⟨r₀, inputs ++ [.clear], hcreate, by simp [run_append, run, step]⟩

/-- Every run has a trace. -/
theorem exists_trace_of_run {r₀ : Reassembler}
    (hcreate : create codec clockRate policy = .ok r₀) (inputs : List Input) :
    ∃ fed events, Trace codec clockRate policy (r₀.run inputs).1 fed events := by
  induction inputs using List.reverseRecOn with
  | nil => exact ⟨[], [], .start hcreate⟩
  | append_singleton inputs input ih =>
      obtain ⟨fed, events, t⟩ := ih
      rw [run_append]
      cases input with
      | packet packet => exact ⟨_, _, t.feed packet⟩
      | clear => exact ⟨_, _, t.clear⟩

/-- On any run the clock has a whole tick in each millisecond. -/
theorem Trace.clockRate_le (t : Trace codec clockRate policy r fed events) :
    1000 ≤ clockRate := by
  induction t with
  | start created => exact (eq_of_create created).1
  | feed _ _ ih | clear _ ih => exact ih

/-- The format is never changed by a run. -/
theorem Trace.format_eq (t : Trace codec clockRate policy r fed events) :
    r.format = Format.ofClockRate codec clockRate := by
  induction t with
  | start created => rw [(eq_of_create created).2]
  | feed _ _ ih | clear _ ih => exact ih

/-- The policy is never changed by a run. -/
theorem Trace.policy_eq (t : Trace codec clockRate policy r fed events) :
    r.policy = policy := by
  induction t with
  | start created => rw [(eq_of_create created).2]
  | feed _ _ ih | clear _ ih => exact ih

/-- The window after a stretch is that of the packets fed in it. -/
theorem Trace.feedAll_eq (t : Trace codec clockRate policy r fed events) :
    Window.feedAll policy (Format.ofClockRate codec clockRate) {} fed = (r.window, events) := by
  induction t with
  | start created =>
      rw [(eq_of_create created).2]
      rfl
  | feed packet t ih =>
      rw [Window.feedAll_concat, ih, ← t.format_eq]
      simp only [Reassembler.feed, t.policy_eq]
  | clear t _ => rfl

/-- Any packets can be fed to a new reassembler. -/
theorem exists_trace_feedAll (codec : Codec) (policy : Policy) (h : 1000 ≤ clockRate)
    (fed : List Rtp.Packet) :
    ∃ r, Trace codec clockRate policy r fed
      (Window.feedAll policy (Format.ofClockRate codec clockRate) {} fed).2 := by
  have hexists : ∃ r events, Trace codec clockRate policy r fed events := by
    induction fed using List.reverseRecOn with
    | nil => exact ⟨_, _, .start (create_eq_ok h)⟩
    | append_singleton fed packet ih =>
        obtain ⟨r, events, t⟩ := ih
        exact ⟨_, _, t.feed packet⟩
  obtain ⟨r, events, t⟩ := hexists
  refine ⟨r, ?_⟩
  rw [t.feedAll_eq]
  exact t

/-- The slots of a stretch, those that left and those that wait. -/
def slotsOf (r : Reassembler) (events : List Event) : List Slot :=
  events.flatMap Event.slots ++ r.window.buffer

/-- A packet that is fed joins the slots of the stretch, once, or is refused and
changes none. -/
theorem slotsOf_feed (r : Reassembler) (packet : Rtp.Packet) (events : List Event) :
    slotsOf (r.feed packet).1 (events ++ (r.feed packet).2) = slotsOf r events ∨
      (slotsOf (r.feed packet).1 (events ++ (r.feed packet).2)).Perm
        (Slot.ofPacket r.format.codec packet :: slotsOf r events) := by
  have hfeed := Window.feed_feeding (p := r.policy) (f := r.format) r.window packet
  unfold slotsOf
  rw [List.flatMap_append, List.append_assoc]
  rcases hfeed.perm with heq | hperm
  · exact Or.inl (congrArg (events.flatMap Event.slots ++ ·) heq)
  · exact Or.inr ((hperm.append_left _).trans List.perm_middle)

/-- Whatever waits or has left was classified when it was fed. -/
theorem Trace.classified (t : Trace codec clockRate policy r fed events) :
    ∀ s ∈ slotsOf r events, s.Classified codec := by
  induction t with
  | start created => simp [slotsOf, (eq_of_create created).2]
  | @feed r fed events packet t ih =>
      intro s hs
      rcases slotsOf_feed r packet events with heq | hperm
      · exact ih s (heq ▸ hs)
      · rcases List.mem_cons.mp (hperm.mem_iff.mp hs) with rfl | hs
        · rw [t.format_eq]
          exact Slot.classified_ofPacket codec packet
        · exact ih s hs
  | clear t _ => simp [slotsOf, Reassembler.clear]

/-- **No packet is in two places.**  The packets that wait or have left are
among those fed, each as often at most as it was fed. -/
theorem Trace.subperm (t : Trace codec clockRate policy r fed events) :
    ((slotsOf r events).map Slot.packet).Subperm fed := by
  induction t with
  | start created => simp [slotsOf, (eq_of_create created).2]
  | @feed r fed events packet t ih =>
      rcases slotsOf_feed r packet events with heq | hperm
      · rw [heq]
        exact ih.trans (List.sublist_append_left fed [packet]).subperm
      · apply (hperm.map Slot.packet).subperm.trans
        apply ((List.subperm_cons packet).mpr ih).trans
        exact (List.perm_append_singleton packet fed).symm.subperm
  | clear t _ => simp [slotsOf, Reassembler.clear]

end Reassembler

end RtpReassembly
