import RtpReassembly.Proofs.Intake
import RtpReassembly.Proofs.Trace

/-!
# What a window waits for

After every packet a window goes on until nothing moves.  It is then empty or
it waits, and there are only three things to wait for: the packets of a hole
before the head, the rest of the run at the head, and the start of the fragment
at the head.  For the packets of a hole it waits while no more packets stand
behind the hole than the tolerance allows, and not one packet less.

* `Waits p w a`: the window `w` has to wait for `a`;
* `feed_atRest`: feeding leads from rest to rest, within the capacity;
* `ReluctantMoves`: packets are evicted from windows at rest only;
* `Moves.patient`, `Moves.patient_start`: no hole is given up early;
* `Trace.never_stalls` puts these together.
-/

namespace RtpReassembly

/-- Whether a hole is given up, before the head or behind a run. -/
def Event.givesUpHole : Event → Bool
  | .gaveUp _ _ | .runAbandoned .sequenceGap _ _ _ => true
  | _ => false

namespace Window

/-- What a window can wait for. -/
inductive Awaited
  /-- The packets of a hole before the head. -/
  | hole
  /-- The rest of the run at the head. -/
  | runEnd
  /-- The start of the run that the head goes on with. -/
  | runStart
  deriving DecidableEq, Repr

/-- A window waits with good reason. -/
inductive Waits (p : Policy) : Window → Awaited → Prop
  /-- The head is not the next packet, and no more wait than may wait behind a
  hole. -/
  | hole {c : SeqNum} {head : Slot} {tail : List Slot}
      (hole : ¬ SeqNum.follows c head.seq) (short : tail.length + 1 ≤ p.tolerance) :
      Waits p ⟨head :: tail, some c⟩ .hole
  /-- All that waits is an open run, or there is a hole behind the run, and no
  more wait behind it than may. -/
  | runEnd {consumed : Option SeqNum} {head : Slot} {middles behind : List Slot}
      (next : IsNext consumed head) (run : OpenRun head middles)
      (hole : ∀ s ∈ behind.head?, ¬ SeqNum.follows (lastSeq head middles) s.seq)
      (short : behind.length ≤ p.tolerance) :
      Waits p ⟨head :: (middles ++ behind), consumed⟩ .runEnd
  /-- The head goes on with a run whose start is not there.  It stays if it is
  to stay, and else while nothing has left and no more wait than may. -/
  | runStart {consumed : Option SeqNum} {head : Slot} {tail : List Slot}
      (next : IsNext consumed head) (orphan : head.placement.isContinuation)
      (kept : ¬ p.discardOrphans ∨ consumed = none ∧ tail.length + 1 ≤ p.tolerance) :
      Waits p ⟨head :: tail, consumed⟩ .runStart

/-- Nothing can be done: the window is empty, or it waits. -/
def AtRest (p : Policy) (w : Window) : Prop :=
  w.buffer = [] ∨ ∃ a, Waits p w a

variable {p : Policy} {f : Format}

/-- A window waits for one thing only. -/
theorem Waits.unique {w : Window} {a b : Awaited} (h : Waits p w a) (h' : Waits p w b) :
    a = b := by
  cases h with
  | hole hole _ =>
      cases h' with
      | hole _ _ => rfl
      | runEnd next _ _ _ => exact absurd (next _ rfl) hole
      | runStart next _ _ => exact absurd (next _ rfl) hole
  | runEnd next run _ _ =>
      generalize hw : Window.mk _ _ = w at h'
      cases h' with
      | hole hole _ =>
          obtain ⟨hb, rfl⟩ := Window.mk.inj hw
          obtain ⟨rfl, -⟩ := List.cons.inj hb
          exact absurd (next _ rfl) hole
      | runEnd _ _ _ _ => rfl
      | runStart _ orphan _ =>
          obtain ⟨hb, rfl⟩ := Window.mk.inj hw
          obtain ⟨rfl, -⟩ := List.cons.inj hb
          exact absurd orphan run.not_continuation
  | runStart next orphan _ =>
      cases h' with
      | hole hole _ => exact absurd (next _ rfl) hole
      | runEnd _ run _ _ => exact absurd orphan run.not_continuation
      | runStart _ _ _ => rfl

/-- A head that is served and does not leave has to wait. -/
theorem serve_settled {consumed : Option SeqNum} {head : Slot} {tail : List Slot} {w : Window}
    {es : List Event} (next : IsNext consumed head)
    (h : serve p f consumed head tail = .settled w es) : ∃ a, Waits p w a := by
  unfold serve at h
  split at h
  · simp at h
  · rename_i hkept
    have hassembled := assemble_assembled (f := f) head tail
    split at h
    all_goals rename_i ho; rw [ho] at hassembled
    · simp at h
    · simp at h
    · obtain ⟨rfl, -⟩ := Turn.settled.inj h
      cases hassembled with
      | orphan continuation =>
          refine ⟨.runStart, .runStart next continuation ?_⟩
          by_cases hdiscard : p.discardOrphans
          · have hnot : ¬ (consumed.isSome ∨ p.isLost (tail.length + 1)) :=
              fun hgiven => hkept ⟨continuation, hdiscard, hgiven⟩
            right
            simpa [Policy.isLost] using hnot
          · exact Or.inl hdiscard
      | awaiting run =>
          have hwaits := @Waits.runEnd p consumed head tail [] next run (by simp) (Nat.zero_le _)
          exact ⟨.runEnd, by simpa using hwaits⟩
    · cases hassembled with
      | @gap s middles behind run hole =>
          have hcount : (middles ++ s :: behind).length + 1 - (1 + middles.length) =
              (s :: behind).length := by
            simp only [List.length_append]
            omega
          rw [hcount] at h
          split at h
          · simp [abandonRun] at h
          · rename_i hshort
            obtain ⟨rfl, -⟩ := Turn.settled.inj h
            exact ⟨.runEnd, .runEnd next run (by simpa using hole)
              (by simpa [Policy.isLost] using hshort)⟩
    · simp [abandonRun] at h

/-- A turn that does not move finds the window at rest. -/
theorem turn_settled_atRest {w w' : Window} {es : List Event}
    (h : turn p f w = .settled w' es) : w'.AtRest p := by
  obtain ⟨buffer, consumed⟩ := w
  cases buffer with
  | nil =>
      obtain ⟨rfl, -⟩ := Turn.settled.inj h
      exact Or.inl rfl
  | cons head tail =>
      right
      cases hpass : passHole? p consumed head.seq (tail.length + 1) with
      | none =>
          simp only [turn, hpass] at h
          obtain ⟨rfl, -⟩ := Turn.settled.inj h
          cases consumed with
          | none => simp [passHole?] at hpass
          | some c =>
              simp only [passHole?] at hpass
              split at hpass
              · simp at hpass
              · rename_i hole
                split at hpass
                · simp at hpass
                · rename_i hshort
                  exact ⟨.hole, .hole hole (by simpa [Policy.isLost] using hshort)⟩
      | some passed =>
          obtain ⟨consumed', es'⟩ := passed
          have hnext := (passHole?_moves (f := f) hpass).2
          simp only [turn, hpass] at h
          split at h
          · rename_i hserve
            obtain ⟨rfl, -⟩ := Turn.settled.inj h
            exact serve_settled hnext hserve
          · simp at h

/-- **Settling ends at rest.** -/
theorem settle_atRest (w : Window) : (settle p f w).1.AtRest p := by
  fun_induction settle p f w with
  | case1 w w' es h => exact turn_settled_atRest h
  | case2 w w' es h w'' more hrec ih =>
      rw [hrec] at ih
      exact ih

/-- **Trimming ends at rest** within the capacity, if it starts at rest. -/
theorem trim_atRest {w : Window} (h : w.AtRest p) :
    (trim p f w).1.AtRest p ∧ (trim p f w).1.buffer.length ≤ p.capacity := by
  fun_induction trim p f w with
  | case1 w hb => exact ⟨h, by simp [hb]⟩
  | case2 w head tail hb hfull settled w' more hrec ih =>
      rw [hrec] at ih
      exact ih (settle_atRest _)
  | case3 w head tail hb hroom =>
      refine ⟨h, ?_⟩
      rw [hb, List.length_cons]
      omega

/-- **One packet** leads from rest to rest, within the capacity. -/
theorem feed_atRest {w : Window} (packet : Rtp.Packet)
    (h : w.AtRest p ∧ w.buffer.length ≤ p.capacity) :
    (feed p f w packet).1.AtRest p ∧ (feed p f w packet).1.buffer.length ≤ p.capacity := by
  unfold feed
  split
  · exact h
  · split
    · exact h
    · exact trim_atRest (settle_atRest _)

/-- At rest a head before which there is no hole is a fragment.  If it starts a
run, then the packets that follow on it are middles: the run is neither complete
nor broken. -/
theorem AtRest.head_fragment {consumed : Option SeqNum} {head : Slot} {tail : List Slot}
    (h : AtRest p ⟨head :: tail, consumed⟩) (next : IsNext consumed head) :
    head.placement.isFragment ∧
      ∀ middles s behind, tail = middles ++ s :: behind → OpenRun head middles →
        SeqNum.follows (lastSeq head middles) s.seq → s.placement = .fragmentMiddle := by
  obtain hempty | ⟨a, hwaits⟩ := h
  · simp at hempty
  · cases hwaits with
    | hole hole _ => exact absurd (next _ rfl) hole
    | @runEnd _ _ longest beyond _ run hole _ =>
        refine ⟨by simp [run.start, Placement.isFragment], ?_⟩
        intro middles s behind heq hopen hfollows
        -- `longest` ends at a hole, so `middles` stops before it does
        rcases List.append_eq_append_iff.mp heq with ⟨extra, rfl, rfl⟩ | ⟨extra, rfl, hextra⟩
        · cases extra with
          | nil => exact absurd (by simpa using hfollows) (hole s rfl)
          | cons t extra =>
              have hcont := (@contiguous_append head longest (t :: extra)).mp hopen.contiguous
              exact absurd (hcont.2.2 t rfl) (hole t rfl)
        · cases extra with
          | nil =>
              obtain rfl : s :: behind = beyond := hextra
              exact absurd (by simpa using hfollows) (hole s rfl)
          | cons t extra =>
              obtain ⟨rfl, -⟩ := List.cons.inj hextra
              exact run.middles s (by simp)
    | runStart _ orphan _ =>
        constructor
        · cases hp : head.placement <;> simp_all [Placement.isContinuation, Placement.isFragment]
        · intro middles s behind _ hopen
          exact absurd orphan hopen.not_continuation

/-- Once a packet has left, no fragment without a start is at the head of a
window at rest, if such fragments are to be discarded. -/
theorem AtRest.not_orphan {c : SeqNum} {head : Slot} {tail : List Slot}
    (h : AtRest p ⟨head :: tail, some c⟩) (discards : p.discardOrphans)
    (next : IsNext (some c) head) : ¬ head.placement.isContinuation := by
  obtain hempty | ⟨a, hwaits⟩ := h
  · simp at hempty
  · cases hwaits with
    | hole hole _ => exact absurd (next _ rfl) hole
    | runEnd _ run _ _ => exact run.not_continuation
    | runStart _ _ kept => simp [discards] at kept

section Reluctance

variable (p f)

/-- Moves in which packets are evicted from windows at rest only. -/
inductive ReluctantMoves : Window → List Event → Window → Prop
  | nil (w : Window) : ReluctantMoves w [] w
  | cons {w w' w'' : Window} {e : Event} {es : List Event} (move : Move p f w e w')
      (atRest : ∀ s, e = .evicted s → w.AtRest p) (rest : ReluctantMoves w' es w'') :
      ReluctantMoves w (e :: es) w''

end Reluctance

/-- Reluctant moves are moves. -/
theorem ReluctantMoves.moves {w w' : Window} {es : List Event}
    (h : ReluctantMoves p f w es w') : Moves p f w es w' := by
  induction h with
  | nil w => exact .nil w
  | cons move _ _ ih => exact .cons move ih

/-- Reluctant moves follow one another. -/
theorem ReluctantMoves.append {w w' w'' : Window} {es es' : List Event}
    (h : ReluctantMoves p f w es w') (h' : ReluctantMoves p f w' es' w'') :
    ReluctantMoves p f w (es ++ es') w'' := by
  induction h with
  | nil w => exact h'
  | cons move atRest _ ih => exact .cons move atRest (ih h')

/-- Moves that evict nothing are reluctant without more ado. -/
theorem Moves.reluctant {w w' : Window} {es : List Event} (h : Moves p f w es w')
    (hkept : ∀ s, .evicted s ∉ es) : ReluctantMoves p f w es w' := by
  induction h with
  | nil w => exact .nil w
  | @cons w w' w'' e es move _ ih =>
      refine .cons move ?_ (ih fun s hs => hkept s (List.mem_cons_of_mem e hs))
      intro s hs
      exact absurd (hs ▸ List.mem_cons_self) (hkept s)

/-- A turn takes what is ready or gives up on it, and evicts nothing. -/
theorem turn_evicts_nothing (w : Window) (s : Slot) : .evicted s ∉ (turn p f w).events := by
  have hpass : ∀ {consumed : Option SeqNum} {head : SeqNum} {n : Nat} {passed},
      passHole? p consumed head n = some passed → .evicted s ∉ passed.2 := by
    intro consumed head n passed h
    unfold passHole? at h
    grind
  have hserve : ∀ consumed head tail, .evicted s ∉ (serve p f consumed head tail).events := by
    intro consumed head tail
    unfold serve abandonRun
    grind [Turn.events]
  obtain ⟨buffer, consumed⟩ := w
  cases buffer with
  | nil => simp [turn]
  | cons head tail =>
      simp only [turn]
      split
      · simp
      · rename_i consumed' es h
        have hfirst := hpass h
        have hrest := hserve consumed' head tail
        split <;> rename_i hs <;> rw [hs] at hrest <;> simpa using ⟨hfirst, hrest⟩

/-- No packet is evicted while the window settles. -/
theorem settle_evicts_nothing (w : Window) (s : Slot) : .evicted s ∉ (settle p f w).2 := by
  fun_induction settle p f w with
  | case1 w w' es h =>
      have hturn := turn_evicts_nothing (p := p) (f := f) w s
      rwa [h] at hturn
  | case2 w w' es h w'' more hrec ih =>
      have hturn := turn_evicts_nothing (p := p) (f := f) w s
      rw [h] at hturn
      rw [hrec] at ih
      simpa using ⟨hturn, ih⟩

/-- Settling is made of reluctant moves. -/
theorem settle_reluctant (w : Window) :
    ReluctantMoves p f w (settle p f w).2 (settle p f w).1 :=
  (settle_moves w).reluctant (settle_evicts_nothing w)

/-- Trimming evicts from windows at rest: it starts in one, and settles again
before the next eviction. -/
theorem trim_reluctant {w : Window} (h : w.AtRest p) :
    ReluctantMoves p f w (trim p f w).2 (trim p f w).1 := by
  fun_induction trim p f w with
  | case1 w _ => exact .nil _
  | case2 w head tail hb hfull settled w' more hrec ih =>
      obtain ⟨buffer, consumed⟩ := w
      obtain rfl : buffer = head :: tail := hb
      rw [hrec] at ih
      exact .cons (.evict hfull) (fun _ _ => h)
        ((settle_reluctant _).append (ih (settle_atRest _)))
  | case3 w _ _ _ _ => exact .nil _

/-- What happens after a packet was put into the buffer. -/
theorem feed_reluctant {w : Window} {packet : Rtp.Packet} {buffer : ReorderBuffer}
    (fresh : ∀ c ∈ w.consumed, SeqNum.order packet.seq c = .gt)
    (inserted : w.buffer.insert? (Slot.ofPacket f.codec packet) = some buffer) :
    ∃ es, (feed p f w packet).2 = .classified packet :: es ∧
      ReluctantMoves p f ⟨buffer, w.consumed⟩ es (feed p f w packet).1 := by
  have hstale : w.staleAfter? packet.seq = none := by
    unfold staleAfter?
    rw [Option.filter_eq_none_iff]
    intro c hc
    simp [fresh c hc]
  simp only [feed, hstale, inserted, List.cons_append]
  exact ⟨_, rfl, (settle_reluctant _).append (trim_reluctant (settle_atRest _))⟩

/-- **No hole is given up early.**  More packets stand behind it than may wait,
whether they leave later on or stay. -/
theorem Moves.patient {w w' : Window} {es : List Event} (h : Moves p f w es w') :
    ∀ before e after, es = before ++ e :: after → e.givesUpHole →
      p.tolerance < (after.flatMap Event.slots ++ w'.buffer).length := by
  induction h with
  | nil w => simp
  | @cons w w' w'' e es move rest ih =>
      intro before e' after heq hgives
      cases before with
      | cons _ before =>
          exact ih before e' after (List.cons.inj heq).2 hgives
      | nil =>
          obtain ⟨rfl, rfl⟩ := List.cons.inj heq
          -- what leaves later and what stays is all that stands behind the hole
          rw [← rest.buffer_eq]
          cases move with
          | giveUp _ lost => simpa [Policy.isLost] using lost
          | abandonGap _ _ _ lost => simpa [Policy.isLost] using lost
          | _ => simp [Event.givesUpHole] at hgives

/-- **No start is given up early.**  Before anything has left, fragments are
discarded only if more packets wait than may. -/
theorem Moves.patient_start {w w' : Window} {es : List Event} (h : Moves p f w es w')
    (hnone : w.consumed = none) :
    ∀ before first others after, es = before ++ .orphansDiscarded first others :: after →
      before.flatMap Event.slots = [] →
      p.tolerance <
        ((first :: others) ++ after.flatMap Event.slots ++ w'.buffer).length := by
  induction h with
  | nil w => simp
  | @cons w w' w'' e es move rest ih =>
      intro before first others after heq hstay
      cases before with
      | nil =>
          obtain ⟨rfl, rfl⟩ := List.cons.inj heq
          rw [List.append_assoc, ← rest.buffer_eq, List.length_append, List.length_cons]
          cases move with
          | discard _ _ given _ _ =>
              simp only at hnone
              subst hnone
              simp only [Option.isSome_none, Bool.false_eq_true, false_or, Policy.isLost,
                decide_eq_true_eq] at given ⊢
              omega
      | cons _ before =>
          obtain ⟨rfl, hes⟩ := List.cons.inj heq
          rw [List.flatMap_cons, List.append_eq_nil_iff] at hstay
          cases move with
          | giveUp _ _ => simp at hnone
          | wait _ _ => exact ih hnone before first others after hes hstay.2
          | _ => simp [Event.slots] at hstay

/-- Once packets have left there is a last number that left. -/
theorem Moves.isSome_of_slots {w w' : Window} {es : List Event} (h : Moves p f w es w')
    (hleft : es.flatMap Event.slots ≠ []) : w'.consumed.isSome := by
  induction h with
  | nil w => simp at hleft
  | @cons w w' w'' e es move rest ih =>
      by_cases hslots : es.flatMap Event.slots = []
      · apply rest.isSome_consumed
        cases move <;> first | rfl | simp [Event.slots, hslots] at hleft
      · exact ih hslots

section Feeding

variable {w w' : Window} {packet : Rtp.Packet} {es : List Event}

/-- In a call, a hole is given up only while more packets than are tolerated stand
behind it. -/
theorem Feeding.patient (h : Feeding p f w packet (w', es)) :
    ∀ before e after, es = before ++ e :: after → e.givesUpHole →
      p.tolerance < (after.flatMap Event.slots ++ w'.buffer).length := by
  intro before e after heq hgives
  have hmem : e ∈ es := by simp [heq]
  cases h with
  | stale _ _ =>
      obtain rfl := List.mem_singleton.mp hmem
      simp [Event.givesUpHole] at hgives
  | duplicate _ _ =>
      simp only [List.mem_cons, List.not_mem_nil, or_false] at hmem
      rcases hmem with rfl | rfl <;> simp [Event.givesUpHole] at hgives
  | taken _ _ moves =>
      cases before with
      | nil =>
          obtain ⟨rfl, -⟩ := List.cons.inj heq
          simp [Event.givesUpHole] at hgives
      | cons _ before => exact moves.patient before e after (List.cons.inj heq).2 hgives

/-- In a call, an orphan is given up first of all only while more packets than are
tolerated stand, itself among them. -/
theorem Feeding.patient_start (h : Feeding p f w packet (w', es)) (hnone : w.consumed = none) :
    ∀ before first others after, es = before ++ .orphansDiscarded first others :: after →
      before.flatMap Event.slots = [] →
      p.tolerance <
        ((first :: others) ++ after.flatMap Event.slots ++ w'.buffer).length := by
  intro before first others after heq hstay
  have hmem : .orphansDiscarded first others ∈ es := by simp [heq]
  cases h with
  | stale _ _ | duplicate _ _ => simp at hmem
  | taken _ _ moves =>
      cases before with
      | nil => simp at heq
      | cons _ before =>
          obtain ⟨rfl, hes⟩ := List.cons.inj heq
          exact moves.patient_start hnone before first others after hes
            (by simpa [Event.slots] using hstay)

/-- Once a packet has left there is a last number. -/
theorem Feeding.isSome_of_slots (h : Feeding p f w packet (w', es))
    (hleft : es.flatMap Event.slots ≠ []) : w'.consumed.isSome := by
  cases h with
  | stale _ _ | duplicate _ _ => simp [Event.slots] at hleft
  | taken _ _ moves => exact moves.isSome_of_slots (by simpa [Event.slots] using hleft)

end Feeding

end Window

namespace Reassembler

variable {codec : Codec} {clockRate : UInt32} {policy : Policy}
variable {r : Reassembler} {fed : List Rtp.Packet} {events : List Event}

/-- After every call the window is at rest and within its capacity. -/
theorem Trace.atRest (t : Trace codec clockRate policy r fed events) :
    r.window.AtRest policy ∧ r.window.buffer.length ≤ policy.capacity := by
  induction t with
  | start created =>
      rw [(eq_of_create created).2]
      exact ⟨Or.inl rfl, Nat.zero_le _⟩
  | @feed r _ _ packet t ih =>
      have hfeed := Window.feed_atRest (f := r.format) packet ih
      rw [← t.policy_eq] at hfeed ⊢
      exact hfeed
  | clear _ _ => exact ⟨Or.inl rfl, Nat.zero_le _⟩

/-- **A reassembler never stalls, and waits no longer and no less than it
should.**  Whatever it was given, no more packets wait than its capacity allows,
and if any do, then for exactly one of the three things that can be waited for.
So a head before which there is no hole is a fragment, and no run that it starts
is complete or broken.  In any next packet, a hole is given up only with more
packets behind it than the tolerance allows, and so is the start of the stream's
first fragments; and an eviction leaves no fragment without a start at the head,
if these are to be discarded. -/
theorem Trace.never_stalls (t : Trace codec clockRate policy r fed events) :
    r.window.buffer.length ≤ policy.capacity ∧
    (r.window.buffer = [] ∨ ∃! a, Window.Waits policy r.window a) ∧
    (∀ head tail, r.window.buffer = head :: tail → Window.IsNext r.window.consumed head →
      head.placement.isFragment ∧
        ∀ middles s behind, tail = middles ++ s :: behind → OpenRun head middles →
          SeqNum.follows (lastSeq head middles) s.seq → s.placement = .fragmentMiddle) ∧
    ∀ packet,
      (∀ before e after, (r.feed packet).2 = before ++ e :: after → e.givesUpHole →
        policy.tolerance <
          (after.flatMap Event.slots ++ (r.feed packet).1.window.buffer).length) ∧
      (r.window.consumed = none →
        ∀ before first others after,
          (r.feed packet).2 = before ++ .orphansDiscarded first others :: after →
          before.flatMap Event.slots = [] →
          policy.tolerance < ((first :: others) ++ after.flatMap Event.slots ++
            (r.feed packet).1.window.buffer).length) ∧
      (policy.discardOrphans → ∀ s, .evicted s ∈ (r.feed packet).2 →
        ∀ head ∈ (r.feed packet).1.window.buffer.head?,
          Window.IsNext (r.feed packet).1.window.consumed head →
          ¬ head.placement.isContinuation) := by
  obtain ⟨hrest, hroom⟩ := t.atRest
  refine ⟨hroom, ?_, ?_, ?_⟩
  · rcases hrest with hempty | ⟨a, hwaits⟩
    · exact Or.inl hempty
    · exact Or.inr ⟨a, hwaits, fun b hb => hb.unique hwaits⟩
  · intro head tail hb next
    have hwindow : r.window = ⟨head :: tail, r.window.consumed⟩ := by rw [← hb]
    rw [hwindow] at hrest
    exact hrest.head_fragment next
  · intro packet
    have hfeed := Window.feed_feeding (p := r.policy) (f := r.format) r.window packet
    have hrest' := (t.feed packet).atRest.1
    rw [← t.policy_eq] at hrest' ⊢
    refine ⟨hfeed.patient, hfeed.patient_start, ?_⟩
    intro discards s hs head hhead next
    -- an eviction leaves a last number, and an orphan is only waited for without one
    have hleft : (r.feed packet).2.flatMap Event.slots ≠ [] :=
      List.ne_nil_of_mem (List.mem_flatMap.mpr ⟨_, hs, List.mem_singleton_self s⟩)
    obtain ⟨c, hc⟩ := Option.isSome_iff_exists.mp (hfeed.isSome_of_slots hleft)
    obtain ⟨tail, hb⟩ := List.head?_eq_some_iff.mp hhead
    have hwindow : (r.feed packet).1.window = ⟨head :: tail, some c⟩ := by
      rw [← hb, ← hc]
      rfl
    rw [hwindow] at hrest' next
    exact hrest'.not_orphan discards next

/-- A run too long for the capacity loses its start, and the rest of it goes at
once; then a packet waits behind a hole. -/
theorem never_stalls_evicted :
    ∃ fed r events,
      fed = [.simple 96 true 1 9000 1 [0x41, 0xA0], .simple 96 false 2 9000 1 [0x7C, 0x85, 0xB0],
        .simple 96 false 3 9000 1 [0x7C, 0x05, 0xB1], .simple 96 false 4 9000 1 [0x7C, 0x05, 0xB2],
        .simple 96 true 6 9000 1 [0x41, 0xC0]] ∧
      Trace .h264 90000 ⟨2, 5, true⟩ r fed events ∧
      r.window.consumed = some 4 ∧ r.window.buffer.seqs = [6] ∧
      (∃ s, .evicted s ∈ events ∧ s.seq = 2) ∧
      ∃! a, Window.Waits ⟨2, 5, true⟩ r.window a := by
  obtain ⟨r, t⟩ := exists_trace_feedAll .h264 ⟨2, 5, true⟩ (by decide : (1000 : UInt32) ≤ 90000)
    [.simple 96 true 1 9000 1 [0x41, 0xA0], .simple 96 false 2 9000 1 [0x7C, 0x85, 0xB0],
      .simple 96 false 3 9000 1 [0x7C, 0x05, 0xB1], .simple 96 false 4 9000 1 [0x7C, 0x05, 0xB2],
      .simple 96 true 6 9000 1 [0x41, 0xC0]]
  have hwindow : r.window = _ := (congrArg Prod.fst t.feedAll_eq).symm
  have hbuffer : r.window.buffer.seqs = [6] := by
    rw [hwindow]
    decide +kernel
  refine ⟨_, r, _, rfl, t, ?_, hbuffer, ⟨Slot.ofPacket .h264
    (.simple 96 false 2 9000 1 [0x7C, 0x85, 0xB0]), by decide +kernel, rfl⟩, ?_⟩
  · rw [hwindow]
    decide +kernel
  · apply t.never_stalls.2.1.resolve_left
    intro hempty
    simp [hempty, ReorderBuffer.seqs] at hbuffer

end Reassembler

end RtpReassembly
