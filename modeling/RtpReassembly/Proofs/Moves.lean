import RtpReassembly.Window
import RtpReassembly.Proofs.Row
import RtpReassembly.Proofs.Insertion

/-!
# What a window can do

`Window.feed` loops over looks at the head of the buffer, and evicts in
between.  A `Move` is one thing that happens on the way, together with all that
makes it happen, and `Moves` are any number of them.  So an invariant of
windows needs one case for each kind of move, and no proof about runs unfolds
the loops again.

* `settle_moves`, `trim_moves`: the loops do nothing but moves;
* `feed_feeding`: a packet is stale, or a duplicate, or is put into the buffer
  and moves follow.
-/

namespace RtpReassembly

/-- The window after a turn. -/
def Turn.window : Turn → Window
  | .settled w _ => w
  | .moved w _ => w

/-- What happened in a turn. -/
def Turn.events : Turn → List Event
  | .settled _ events => events
  | .moved _ events => events

@[simp] theorem Turn.window_settled (w : Window) (es : List Event) :
    (Turn.settled w es).window = w := rfl

@[simp] theorem Turn.window_moved (w : Window) (es : List Event) :
    (Turn.moved w es).window = w := rfl

@[simp] theorem Turn.events_settled (w : Window) (es : List Event) :
    (Turn.settled w es).events = es := rfl

@[simp] theorem Turn.events_moved (w : Window) (es : List Event) :
    (Turn.moved w es).events = es := rfl

namespace Window

/-- No hole stands before the packet: it is the next one, or any may be. -/
def IsNext (consumed : Option SeqNum) (s : Slot) : Prop :=
  ∀ c ∈ consumed, SeqNum.follows c s.seq

variable (p : Policy) (f : Format)

/-- One thing that happens to a window, without a packet coming in. -/
inductive Move : Window → Event → Window → Prop
  /-- A hole before the head is given up. -/
  | giveUp {c : SeqNum} {head : Slot} {tail : List Slot}
      (hole : ¬ SeqNum.follows c head.seq) (lost : p.isLost (tail.length + 1)) :
      Move ⟨head :: tail, some c⟩ (.gaveUp (SeqNum.missingBetween c head.seq) head.seq)
        ⟨head :: tail, some (head.seq - 1)⟩
  /-- A fragment at the head stays, since its start may still come. -/
  | wait {consumed : Option SeqNum} {head : Slot} {tail : List Slot}
      (next : IsNext consumed head) (orphan : head.placement.isContinuation) :
      Move ⟨head :: tail, consumed⟩ (.orphanWaits head) ⟨head :: tail, consumed⟩
  | emit {consumed : Option SeqNum} {head : Slot} {others behind : List Slot}
      {unit : AccessUnit} (next : IsNext consumed head) (forms : Forms f (head :: others) unit) :
      Move ⟨head :: (others ++ behind), consumed⟩ (.emitted unit head others)
        ⟨behind, some (lastSeq head others)⟩
  | drop {consumed : Option SeqNum} {head : Slot} {tail : List Slot} {cause : DropCause}
      (next : IsNext consumed head)
      (useless : assemble f (head :: tail) = .dropped cause head.seq) :
      Move ⟨head :: tail, consumed⟩ (.dropped cause head) ⟨tail, some head.seq⟩
  /-- Fragments go whose start cannot come any more. -/
  | discard {consumed : Option SeqNum} {head : Slot} {others behind : List Slot}
      (next : IsNext consumed head) (allowed : p.discardOrphans)
      (given : consumed.isSome ∨ p.isLost (others.length + behind.length + 1))
      (orphans : ∀ s ∈ head :: others, s.placement.isContinuation)
      (contiguous : Contiguous (head :: others)) :
      Move ⟨head :: (others ++ behind), consumed⟩ (.orphansDiscarded head others)
        ⟨behind, some (lastSeq head others)⟩
  /-- An open run goes since a packet is missing behind it, and the hole goes
  with it. -/
  | abandonGap {consumed : Option SeqNum} {head s : Slot} {others behind : List Slot}
      (next : IsNext consumed head) (run : OpenRun head others)
      (hole : ¬ SeqNum.follows (lastSeq head others) s.seq)
      (lost : p.isLost (behind.length + 1)) :
      Move ⟨head :: (others ++ s :: behind), consumed⟩
        (.runAbandoned .sequenceGap head others (some s.seq)) ⟨s :: behind, some (s.seq - 1)⟩
  /-- An open run goes since the packet behind it belongs to something else. -/
  | abandonBroken {consumed : Option SeqNum} {head s : Slot} {others behind : List Slot}
      (next : IsNext consumed head) (run : OpenRun head others)
      (follows : SeqNum.follows (lastSeq head others) s.seq)
      (other : ¬ s.placement.isContinuation) :
      Move ⟨head :: (others ++ s :: behind), consumed⟩
        (.runAbandoned .unterminated head others (some s.seq))
        ⟨s :: behind, some (lastSeq head others)⟩
  | evict {consumed : Option SeqNum} {head : Slot} {tail : List Slot}
      (full : p.capacity < tail.length + 1) :
      Move ⟨head :: tail, consumed⟩ (.evicted head) ⟨tail, some head.seq⟩

/-- Any number of moves. -/
inductive Moves : Window → List Event → Window → Prop
  | nil (w : Window) : Moves w [] w
  | cons {w w' w'' : Window} {e : Event} {es : List Event}
      (move : Move p f w e w') (rest : Moves w' es w'') : Moves w (e :: es) w''

variable {p f}

/-- One move is a row of moves. -/
theorem Moves.single {w w' : Window} {e : Event} (h : Move p f w e w') : Moves p f w [e] w' :=
  .cons h (.nil w')

/-- Two rows of moves make one. -/
theorem Moves.append {w w' w'' : Window} {es es' : List Event}
    (h : Moves p f w es w') (h' : Moves p f w' es' w'') : Moves p f w (es ++ es') w'' := by
  induction h with
  | nil w => exact h'
  | cons move _ ih => exact .cons move (ih h')

/-- A packet is next behind the number before its own. -/
theorem isNext_pred (s : Slot) : IsNext (some (s.seq - 1)) s := by
  intro c hc
  obtain rfl := Option.mem_some.mp hc
  simp [SeqNum.follows]

/-- The fragments that go with an orphan continue it. -/
theorem splitOrphans_orphans {first : Slot} {rest others behind : List Slot}
    (h : splitOrphans first.seq rest = (others, behind)) :
    rest = others ++ behind ∧ Contiguous (first :: others) ∧
      ∀ s ∈ others, s.placement.isContinuation := by
  induction rest generalizing first others with
  | nil =>
      simp only [splitOrphans, Prod.mk.injEq] at h
      obtain ⟨rfl, rfl⟩ := h
      exact ⟨rfl, contiguous_singleton _, by simp⟩
  | cons s rest ih =>
      unfold splitOrphans at h
      split at h
      · obtain ⟨rfl, rfl⟩ := Prod.mk.inj h
        exact ⟨rfl, contiguous_singleton _, by simp⟩
      · rename_i hgo
        obtain ⟨horphan, hnext⟩ := Decidable.not_not.mp hgo
        split at h
        · obtain ⟨rfl, rfl⟩ := Prod.mk.inj h
          exact ⟨rfl, contiguous_cons_cons.mpr ⟨hnext, contiguous_singleton _⟩,
            by simpa using horphan⟩
        · obtain ⟨rfl, rfl⟩ := Prod.mk.inj h
          obtain ⟨happ, hcont, horphans⟩ := @ih s _ rfl
          refine ⟨by rw [List.cons_append, ← happ], contiguous_cons_cons.mpr ⟨hnext, hcont⟩, ?_⟩
          intro t ht
          rcases List.mem_cons.mp ht with rfl | ht
          · exact horphan
          · exact horphans t ht

/-- The orphans behind a head are continuations, without a gap from the head on,
and the others stay. -/
theorem orphansAfter_orphans {head : Slot} {tail others behind : List Slot}
    (h : orphansAfter head tail = (others, behind)) :
    tail = others ++ behind ∧ Contiguous (head :: others) ∧
      ∀ s ∈ others, s.placement.isContinuation := by
  unfold orphansAfter at h
  split at h
  · obtain ⟨rfl, rfl⟩ := Prod.mk.inj h
    exact ⟨rfl, contiguous_singleton _, by simp⟩
  · exact splitOrphans_orphans h

/-- Serving a head before which no hole stands does nothing but moves. -/
theorem serve_moves {consumed : Option SeqNum} {head : Slot} {tail : List Slot}
    (next : IsNext consumed head) :
    Moves p f ⟨head :: tail, consumed⟩ (serve p f consumed head tail).events
      (serve p f consumed head tail).window := by
  unfold serve
  split
  · -- the head is an orphan, and goes with the rest of its unit
    rename_i hdiscard
    obtain ⟨horphan, hallowed, hgiven⟩ := hdiscard
    obtain ⟨others, behind, hafter⟩ : ∃ others behind,
        orphansAfter head tail = (others, behind) := ⟨_, _, rfl⟩
    obtain ⟨rfl, hcont, horphans⟩ := orphansAfter_orphans hafter
    rw [hafter]
    exact .single (.discard next hallowed (by simpa using hgiven)
      (by simpa using ⟨horphan, horphans⟩) hcont)
  · have hassembled := assemble_assembled (f := f) head tail
    split
    all_goals rename_i ho; rw [ho] at hassembled
    · cases hassembled with
      | emitted forms => simpa using Moves.single (.emit next forms)
    · cases hassembled with
      | dropped => exact .single (.drop next ho)
    · cases hassembled with
      | orphan continuation => exact .single (.wait next continuation)
      | awaiting run => exact .nil _
    · cases hassembled with
      | @gap s middles behind run hole =>
          have hcount : (middles ++ s :: behind).length + 1 - (1 + middles.length) =
              behind.length + 1 := by
            simp only [List.length_append, List.length_cons]
            omega
          rw [hcount]
          split
          · rename_i hlost
            simpa [abandonRun, consumedWithHole, hole] using
              Moves.single (.abandonGap next run hole hlost)
          · exact .nil _
    · cases hassembled with
      | broken run follows other =>
          simpa [abandonRun, consumedWithHole, follows] using
            Moves.single (.abandonBroken next run follows other)

/-- Passing the hole before the head makes the head the next packet. -/
theorem passHole?_moves {consumed consumed' : Option SeqNum} {head : Slot} {tail : List Slot}
    {es : List Event}
    (h : passHole? p consumed head.seq (tail.length + 1) = some (consumed', es)) :
    Moves p f ⟨head :: tail, consumed⟩ es ⟨head :: tail, consumed'⟩ ∧ IsNext consumed' head := by
  unfold passHole? at h
  cases consumed with
  | none =>
      obtain ⟨rfl, rfl⟩ := Prod.mk.inj (Option.some.inj h)
      exact ⟨.nil _, by simp [IsNext]⟩
  | some c =>
      simp only at h
      split at h
      · rename_i hnext
        obtain ⟨rfl, rfl⟩ := Prod.mk.inj (Option.some.inj h)
        exact ⟨.nil _, by simpa [IsNext] using hnext⟩
      · rename_i hole
        split at h
        · rename_i hlost
          obtain ⟨rfl, rfl⟩ := Prod.mk.inj (Option.some.inj h)
          exact ⟨.single (.giveUp hole hlost), isNext_pred head⟩
        · simp at h

/-- A turn does nothing but moves. -/
theorem turn_moves (w : Window) :
    Moves p f w (turn p f w).events (turn p f w).window := by
  obtain ⟨buffer, consumed⟩ := w
  unfold turn
  cases buffer with
  | nil => exact .nil _
  | cons head tail =>
      simp only
      split
      · exact .nil _
      · rename_i consumed' es hpass
        obtain ⟨hmoves, hnext⟩ := passHole?_moves (f := f) hpass
        have hserve := @serve_moves p f consumed' head tail hnext
        split <;> rename_i hs <;> rw [hs] at hserve <;> exact hmoves.append hserve

/-- **Settling does nothing but moves.** -/
theorem settle_moves (w : Window) : Moves p f w (settle p f w).2 (settle p f w).1 := by
  fun_induction settle p f w with
  | case1 w w' es h =>
      have hturn := turn_moves (p := p) (f := f) w
      rw [h] at hturn
      exact hturn
  | case2 w w' es h w'' more hrec ih =>
      have hturn := turn_moves (p := p) (f := f) w
      rw [h] at hturn
      rw [hrec] at ih
      exact hturn.append ih

/-- **Trimming does nothing but moves.** -/
theorem trim_moves (w : Window) : Moves p f w (trim p f w).2 (trim p f w).1 := by
  fun_induction trim p f w with
  | case1 w _ => exact .nil _
  | case2 w head tail hb hfull settled w' more hrec ih =>
      obtain ⟨buffer, consumed⟩ := w
      obtain rfl : buffer = head :: tail := hb
      rw [hrec] at ih
      exact .cons (.evict hfull) ((settle_moves _).append ih)
  | case3 w _ _ _ _ => exact .nil _

/-- The packets that leave in a move leave from the head. -/
theorem Move.buffer_eq {w w' : Window} {e : Event} (h : Move p f w e w') :
    w.buffer = e.slots ++ w'.buffer := by
  cases h <;> simp [Event.slots]

/-- The packets that leave, in the order of leaving, and those that stay are
the buffer. -/
theorem Moves.buffer_eq {w w' : Window} {es : List Event} (h : Moves p f w es w') :
    w.buffer = es.flatMap Event.slots ++ w'.buffer := by
  induction h with
  | nil w => rfl
  | cons move _ ih => rw [List.flatMap_cons, List.append_assoc, ← ih, move.buffer_eq]

/-- Every unit is formed by the packets that leave with it. -/
theorem Moves.forms {w w' : Window} {es : List Event} (h : Moves p f w es w') :
    ∀ e ∈ es, ∀ unit, e.unit? = some unit → Forms f e.slots unit := by
  induction h with
  | nil w => simp
  | @cons w w' w'' e es move _ ih =>
      intro e' he unit hunit
      rcases List.mem_cons.mp he with rfl | he
      · cases move with
        | emit next forms =>
            obtain rfl := Option.some.inj hunit
            exact forms
        | _ => simp [Event.unit?] at hunit
      · exact ih e' he unit hunit

/-- Once a number has left, there is always a last one. -/
theorem Moves.isSome_consumed {w w' : Window} {es : List Event} (h : Moves p f w es w')
    (hc : w.consumed.isSome) : w'.consumed.isSome := by
  induction h with
  | nil w => exact hc
  | cons move _ ih =>
      apply ih
      cases move <;> first | rfl | exact hc

/-- What comes of a packet: too late, there already, or taken in. -/
inductive Feeding (p : Policy) (f : Format) (w : Window) (packet : Rtp.Packet) :
    Window × List Event → Prop
  | stale {c : SeqNum} (last : w.consumed = some c)
      (late : SeqNum.order packet.seq c ≠ .gt) :
      Feeding p f w packet (w, [.stale packet.seq c])
  | duplicate (fresh : ∀ c ∈ w.consumed, SeqNum.order packet.seq c = .gt)
      (refused : w.buffer.insert? (Slot.ofPacket f.codec packet) = none) :
      Feeding p f w packet (w, [.classified packet, .duplicate packet.seq])
  | taken {buffer : ReorderBuffer} {w' : Window} {es : List Event}
      (fresh : ∀ c ∈ w.consumed, SeqNum.order packet.seq c = .gt)
      (inserted : w.buffer.insert? (Slot.ofPacket f.codec packet) = some buffer)
      (moves : Moves p f ⟨buffer, w.consumed⟩ es w') :
      Feeding p f w packet (w', .classified packet :: es)

/-- **One step.**  Every packet is fed in one of the three ways. -/
theorem feed_feeding (w : Window) (packet : Rtp.Packet) :
    Feeding p f w packet (feed p f w packet) := by
  unfold feed
  split
  · rename_i c hstale
    obtain ⟨hlast, hlate⟩ := Option.filter_eq_some_iff.mp hstale
    exact .stale hlast (by simpa using hlate)
  · rename_i hstale
    have fresh : ∀ c ∈ w.consumed, SeqNum.order packet.seq c = .gt := by
      intro c hc
      simpa using Option.filter_eq_none_iff.mp hstale c hc
    split
    · rename_i hrefused
      exact .duplicate fresh hrefused
    · rename_i buffer hinserted
      exact .taken fresh hinserted ((settle_moves _).append (trim_moves _))

/-- Feeding adds the packet to those that wait, or nothing; and then some
leave. -/
theorem Feeding.perm {w w' : Window} {packet : Rtp.Packet} {es : List Event}
    (h : Feeding p f w packet (w', es)) :
    es.flatMap Event.slots ++ w'.buffer = w.buffer ∨
      (es.flatMap Event.slots ++ w'.buffer).Perm (Slot.ofPacket f.codec packet :: w.buffer) := by
  cases h with
  | stale _ _ => exact Or.inl rfl
  | duplicate _ _ => exact Or.inl rfl
  | taken fresh inserted moves =>
      right
      have hb := moves.buffer_eq
      simp only [List.flatMap_cons, Event.slots, List.nil_append] at hb ⊢
      rw [← hb]
      exact ReorderBuffer.insert?_perm inserted

/-- Once a number was consumed, feeding does not forget it. -/
theorem Feeding.isSome_consumed {w w' : Window} {packet : Rtp.Packet} {es : List Event}
    (h : Feeding p f w packet (w', es)) (hc : w.consumed.isSome) : w'.consumed.isSome := by
  cases h with
  | stale _ _ => exact hc
  | duplicate _ _ => exact hc
  | taken _ _ moves => exact moves.isSome_consumed hc

/-- Each unit that a feed emits is made of the packets its event is about. -/
theorem Feeding.forms {w : Window} {packet : Rtp.Packet} {result : Window × List Event}
    (h : Feeding p f w packet result) :
    ∀ e ∈ result.2, ∀ unit, e.unit? = some unit → Forms f e.slots unit := by
  intro e he unit hunit
  cases h with
  | stale _ _ =>
      obtain rfl := List.mem_singleton.mp he
      simp [Event.unit?] at hunit
  | duplicate _ _ =>
      simp only [List.mem_cons, List.not_mem_nil, or_false] at he
      rcases he with rfl | rfl <;> simp [Event.unit?] at hunit
  | taken _ _ moves =>
      rcases List.mem_cons.mp he with rfl | he
      · simp [Event.unit?] at hunit
      · exact moves.forms e he unit hunit

end Window

end RtpReassembly
