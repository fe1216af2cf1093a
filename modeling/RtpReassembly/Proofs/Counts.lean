import RtpReassembly.Proofs.Intake
import RtpReassembly.Proofs.Trace

/-!
# Counting what happens

The counters of a stream are read off its events, one by one.

* `Tally.forget_recordAll`: apart from the packets refused, they depend on
  `Event.serial` only;
* `run_packets`: what feeding packets amounts to.
-/

namespace RtpReassembly

/-- Whether a packet is refused. -/
def Event.isRefusal : Event → Bool
  | .stale _ _ | .duplicate _ => true
  | _ => false

/-- The unit of an event is that of what happens one by one. -/
theorem Event.unit?_serial (e : Event) : e.serial.filterMap Event.unit? = e.unit?.toList := by
  cases e with
  | orphansDiscarded first others =>
      simp [serial, unit?]
  | _ => rfl

/-- Taking orphans one by one makes no difference to the units. -/
theorem filterMap_unit?_serial (es : List Event) :
    (es.flatMap Event.serial).filterMap Event.unit? = es.filterMap Event.unit? := by
  induction es with
  | nil => rfl
  | cons e es ih =>
      rw [List.flatMap_cons, List.filterMap_append, ih, Event.unit?_serial]
      cases he : e.unit? <;> simp [he]

namespace Tally

/-- The counters after some events. -/
def recordAll (t : Tally) (es : List Event) : Tally :=
  es.foldl record t

/-- The counters but for the packets refused. -/
def forget (t : Tally) : Tally :=
  { t with stale := 0, duplicates := 0 }

/-- Where nothing was refused there is nothing to forget. -/
theorem forget_eq_self {t : Tally} (hstale : t.stale = 0) (hduplicates : t.duplicates = 0) :
    t.forget = t := by
  cases t
  simp only at hstale hduplicates
  simp [forget, hstale, hduplicates]

/-- Two rows of events are counted one after the other. -/
theorem recordAll_append (t : Tally) (front back : List Event) :
    t.recordAll (front ++ back) = (t.recordAll front).recordAll back :=
  List.foldl_append

/-- Packets are counted when they are fed. -/
theorem recordAll_packets (t : Tally) (n : Nat) (es : List Event) :
    recordAll { t with packets := n } es = { t.recordAll es with packets := n } := by
  induction es generalizing t with
  | nil => rfl
  | cons e es ih =>
      have hstep : record { t with packets := n } e = { t.record e with packets := n } := by
        cases e <;> rfl
      simp only [recordAll, List.foldl_cons, hstep]
      exact ih (t.record e)

/-- Orphans that go one by one are each counted as dropped. -/
theorem recordAll_orphans (t : Tally) (row : List Slot) :
    t.recordAll (row.map (Event.orphansDiscarded · [])) =
      { t with dropped := t.dropped + row.length } := by
  induction row generalizing t with
  | nil => rfl
  | cons s row ih =>
      simp only [recordAll, List.map_cons, List.foldl_cons] at ih ⊢
      rw [ih]
      simp only [record, List.length_nil, List.length_cons, Tally.mk.injEq, true_and, and_true]
      omega

/-- Apart from the packets refused, an event counts for what happens one by
one. -/
theorem forget_record (t : Tally) (e : Event) :
    (t.record e).forget = t.forget.recordAll e.serial := by
  cases e with
  | orphansDiscarded first others =>
      rw [Event.serial, recordAll_orphans]
      rfl
  | _ => rfl

/-- Refusals apart, orphans count alike whether they go together or one by one. -/
theorem forget_recordAll (t : Tally) (es : List Event) :
    (t.recordAll es).forget = t.forget.recordAll (es.flatMap Event.serial) := by
  induction es generalizing t with
  | nil => rfl
  | cons e es ih =>
      rw [List.flatMap_cons, recordAll_append, ← forget_record]
      exact ih (t.record e)

/-- The packets refused are those that come too late or again. -/
theorem recordAll_refusals (t : Tally) (es : List Event) :
    (t.recordAll es).stale + (t.recordAll es).duplicates =
      t.stale + t.duplicates + es.countP Event.isRefusal := by
  induction es generalizing t with
  | nil => rfl
  | cons e es ih =>
      have hstep : (t.record e).stale + (t.record e).duplicates =
          t.stale + t.duplicates + if e.isRefusal then 1 else 0 := by
        cases e <;> simp [record, Event.isRefusal] <;> omega
      have hrest := ih (t.record e)
      rw [List.countP_cons]
      simp only [recordAll, List.foldl_cons] at hrest ⊢
      omega

end Tally

/-- An event that gives nothing up for lost and evicts nothing. -/
def Event.Lossless (e : Event) : Prop :=
  ∀ t : Tally, (t.record e).evicted = t.evicted ∧ (t.record e).lost = t.lost

/-- Lossless events leave the counters of evictions and losses as they were. -/
theorem Tally.recordAll_lossless {es : List Event} (h : ∀ e ∈ es, e.Lossless) (t : Tally) :
    (t.recordAll es).evicted = t.evicted ∧ (t.recordAll es).lost = t.lost := by
  induction es generalizing t with
  | nil => exact ⟨rfl, rfl⟩
  | cons e es ih =>
      obtain ⟨hevicted, hlost⟩ := h e List.mem_cons_self t
      obtain ⟨hevicted', hlost'⟩ :=
        ih (fun e' he' => h e' (List.mem_cons_of_mem e he')) (t.record e)
      exact ⟨hevicted'.trans hevicted, hlost'.trans hlost⟩

/-- A whole packet leaves without a loss, whatever becomes of it. -/
theorem Event.lossless_ofWhole (f : Format) (s : Slot) : (ofWhole f s).Lossless := by
  intro t
  unfold ofWhole
  cases assemble f [s] <;> exact ⟨rfl, rfl⟩

namespace Window

variable {f : Format} {w : Window} {s : Slot} {row fresh later : List Slot}

/-- Moves refuse nothing. -/
theorem Moves.countP_isRefusal {p : Policy} {w w' : Window} {es : List Event}
    (h : Moves p f w es w') : es.countP Event.isRefusal = 0 := by
  induction h with
  | nil w => rfl
  | cons move _ ih =>
      rw [List.countP_cons, ih]
      cases move <;> rfl

/-- The first fresh packet is taken in without a loss. -/
theorem absorbFirst_lossless {consumed : Option SeqNum} :
    ∀ e ∈ (absorbFirst f consumed s).2, e.Lossless := by
  intro e he
  cases hp : s.placement <;> simp only [absorbFirst, hp, List.mem_singleton, List.not_mem_nil] at he
  all_goals first | exact he ▸ Event.lossless_ofWhole f s | exact fun t => he ▸ ⟨rfl, rfl⟩

/-- Nothing is lost of a stream that comes in order. -/
theorem Ready.absorb_lossless (h : Ready f w (s :: fresh) later) :
    ∀ e ∈ (Window.absorb f w s).2, e.Lossless := by
  obtain ⟨buffer, consumed⟩ := w
  cases buffer with
  | nil => exact absorbFirst_lossless
  | cons start middles =>
      have hfollows := h.follows rfl
      have habandoned :
          (Event.runAbandoned .unterminated start middles (some s.seq)).Lossless := by
        intro t
        simp [Tally.record, lostBefore, hfollows]
      intro e he
      cases hp : s.placement with
      | fragmentMiddle => simp [Window.absorb, hp] at he
      | fragmentEnd =>
          simp only [Window.absorb, hp, List.mem_singleton] at he
          exact fun t => he ▸ ⟨rfl, rfl⟩
      | single | aggregationStart | aggregationMember | fragmentStart | unknown =>
          simp only [Window.absorb, hp] at he
          rcases List.mem_cons.mp he with rfl | he
          · exact habandoned
          · exact absorbFirst_lossless e he

/-- Fresh packets are absorbed without a loss. -/
theorem Ready.absorbAll_lossless (h : Ready f w row later) :
    ∀ e ∈ (Window.absorbAll f w row).2, e.Lossless := by
  induction row generalizing w with
  | nil => simp [Window.absorbAll]
  | cons s row ih =>
      intro e he
      rcases List.mem_append.mp he with he | he
      · exact h.absorb_lossless e he
      · exact ih h.absorb e he

end Window

namespace Reassembler

/-- Feeding packets, one after the other. -/
theorem run_packets (r : Reassembler) (fed : List Rtp.Packet) :
    r.run (fed.map .packet) =
      ({ r with
          window := (r.window.feedAll r.policy r.format fed).1
          tally := { r.tally.recordAll (r.window.feedAll r.policy r.format fed).2 with
            packets := r.tally.packets + fed.length } },
        (r.window.feedAll r.policy r.format fed).2) := by
  induction fed using List.reverseRecOn with
  | nil => rfl
  | append_singleton fed packet ih =>
      rw [List.map_append, run_append, ih, Window.feedAll_concat]
      simp only [List.map_cons, List.map_nil, run, step, feed, List.append_nil]
      have hfeed : ∀ (t : Tally) (es : List Event),
          t.recordFeed es = Tally.recordAll { t with packets := t.packets + 1 } es :=
        fun _ _ => rfl
      rw [hfeed, Tally.recordAll_packets, Tally.recordAll_packets, Tally.recordAll_append]
      simp only [List.length_append, List.length_singleton, Nat.add_assoc]

end Reassembler

end RtpReassembly
