import RtpReassembly.Proofs.Intake
import RtpReassembly.Proofs.Trace

/-!
# The order of emission

Once a packet has left, the packets that wait lie on the half circle in front
of the last number that left, and only then does the circular order mean what
it should.  This file shows that the window stays there, if it starts there.

* `Within r w`: seen from `r`, the window `w` lies sorted on one half circle,
  with what has left before what waits;
* `Moves.within`: moves keep it there, and let packets leave in its order;
* `Trace.window_order`: so units come in the order of the stream, counted
  without wrapping, and share no number of it.
-/

namespace RtpReassembly

namespace Window

/-- Seen from `r`, the window lies on one half circle: the packets that wait
are sorted, and the last number that left is before all of them. -/
structure Within (r : SeqNum) (w : Window) : Prop where
  sorted : w.buffer.SortedFrom r SeqNum.half
  near : ∀ c ∈ w.consumed, SeqNum.ahead c r < SeqNum.half
  behind : ∀ c ∈ w.consumed, ∀ s ∈ w.buffer, SeqNum.ahead c r < SeqNum.ahead s.seq r

/-- An empty window is within any half circle. -/
theorem within_empty (r : SeqNum) : Within r {} :=
  ⟨⟨.nil, by simp⟩, by simp, by simp⟩

variable {r : SeqNum}

/-- In a sorted row no packet is farther than the last. -/
theorem ahead_le_lastSeq {head : Slot} {others : List Slot}
    (h : (head :: others).Pairwise (fun s t => SeqNum.ahead s.seq r < SeqNum.ahead t.seq r)) :
    ∀ s ∈ head :: others, SeqNum.ahead s.seq r ≤ SeqNum.ahead (lastSeq head others) r := by
  induction others generalizing head with
  | nil => simp
  | cons t others ih =>
      obtain ⟨hhead, hrest⟩ := List.pairwise_cons.mp h
      intro s hs
      rw [lastSeq_cons]
      rcases List.mem_cons.mp hs with rfl | hs
      · have hnear := hhead t List.mem_cons_self
        have hfar := ih hrest t List.mem_cons_self
        omega
      · exact ih hrest s hs

/-- A row that leaves from the head makes its last number the last that
left. -/
theorem Within.leave {head : Slot} {others behind : List Slot} {consumed : Option SeqNum}
    (hw : Within r ⟨head :: (others ++ behind), consumed⟩) :
    Within r ⟨behind, some (lastSeq head others)⟩ ∧
      ∀ x ∈ consumed.toList ++ (head :: others).map Slot.seq,
        SeqNum.ahead x r ≤ SeqNum.ahead (lastSeq head others) r := by
  obtain ⟨⟨hsorted, hbound⟩, -, hbehind⟩ := hw
  obtain ⟨hrow, hrest, hcross⟩ := List.pairwise_append.mp (List.cons_append ▸ hsorted)
  have hle := ahead_le_lastSeq hrow
  obtain ⟨last, hlast, heq⟩ := List.mem_map.mp (lastSeq_mem head others)
  constructor
  · refine ⟨⟨hrest, fun s hs => hbound s (by simp [hs])⟩, ?_, ?_⟩
    · intro c hc
      obtain rfl := Option.mem_some.mp hc
      rw [← heq]
      exact hbound last (List.mem_append_left behind hlast)
    · intro c hc s hs
      obtain rfl := Option.mem_some.mp hc
      rw [← heq]
      exact hcross last hlast s hs
  · intro x hx
    rcases List.mem_append.mp hx with hx | hx
    · have hhead := hbehind x (by simpa using hx) head List.mem_cons_self
      have := hle head List.mem_cons_self
      omega
    · obtain ⟨s, hs, rfl⟩ := List.mem_map.mp hx
      exact hle s hs

/-- Skipping the numbers before the head leads no farther than to the head. -/
theorem Within.skip {c : SeqNum} {head : Slot} {tail : List Slot}
    (hw : Within r ⟨head :: tail, some c⟩) :
    Within r ⟨head :: tail, some (head.seq - 1)⟩ ∧
      SeqNum.ahead c r ≤ SeqNum.ahead (head.seq - 1) r := by
  have hlt := hw.behind c rfl head List.mem_cons_self
  have hpred := SeqNum.ahead_pred (SeqNum.ne_of_ahead_lt hlt)
  have hhead := hw.sorted.2 head List.mem_cons_self
  have hsorted := List.pairwise_cons.mp hw.sorted.1
  refine ⟨⟨hw.sorted, ?_, ?_⟩, by omega⟩
  · intro c' hc
    obtain rfl := Option.mem_some.mp hc
    omega
  · intro c' hc s hs
    obtain rfl := Option.mem_some.mp hc
    rcases List.mem_cons.mp hs with rfl | hs
    · omega
    · have := hsorted.1 s hs
      omega

/-- Putting a packet in keeps the window on the half circle. -/
theorem Within.insert {w : Window} {s : Slot} {buffer : ReorderBuffer} (hw : w.Within r)
    (near : SeqNum.ahead s.seq r < SeqNum.half)
    (after : ∀ c ∈ w.consumed, SeqNum.ahead c r < SeqNum.ahead s.seq r)
    (inserted : w.buffer.insert? s = some buffer) : Within r ⟨buffer, w.consumed⟩ := by
  refine ⟨hw.sorted.insert? near inserted, hw.near, ?_⟩
  intro c hc t ht
  rcases List.mem_cons.mp ((ReorderBuffer.insert?_perm inserted).mem_iff.mp ht) with rfl | ht
  · exact after c hc
  · exact hw.behind c hc t ht

variable {p : Policy} {f : Format}

/-- **One move.**  It keeps the window on the half circle, and leads the last
number that left past all that leaves. -/
theorem Move.within {w w' : Window} {e : Event} (h : Move p f w e w') (hw : w.Within r) :
    w'.Within r ∧ ∀ x ∈ w.consumed.toList ++ e.slots.map Slot.seq,
      ∃ c ∈ w'.consumed, SeqNum.ahead x r ≤ SeqNum.ahead c r := by
  cases h with
  | giveUp hole lost =>
      obtain ⟨hw', hle⟩ := hw.skip
      exact ⟨hw', by simpa [Event.slots] using hle⟩
  | wait next orphan =>
      refine ⟨hw, ?_⟩
      intro x hx
      exact ⟨x, by simpa [Event.slots] using hx, Nat.le_refl _⟩
  | emit next forms =>
      obtain ⟨hw', hle⟩ := hw.leave
      exact ⟨hw', fun x hx => ⟨_, rfl, hle x hx⟩⟩
  | @drop consumed head tail cause next useless =>
      obtain ⟨hw', hle⟩ := @Within.leave r head [] tail consumed hw
      exact ⟨hw', fun x hx => ⟨_, rfl, hle x hx⟩⟩
  | discard next allowed given orphans contiguous =>
      obtain ⟨hw', hle⟩ := hw.leave
      exact ⟨hw', fun x hx => ⟨_, rfl, hle x hx⟩⟩
  | abandonGap next run hole lost =>
      obtain ⟨hw', hle⟩ := hw.leave
      obtain ⟨hw'', hskip⟩ := hw'.skip
      exact ⟨hw'', fun x hx => ⟨_, rfl, (hle x hx).trans hskip⟩⟩
  | abandonBroken next run follows other =>
      obtain ⟨hw', hle⟩ := hw.leave
      exact ⟨hw', fun x hx => ⟨_, rfl, hle x hx⟩⟩
  | @evict consumed head tail full =>
      obtain ⟨hw', hle⟩ := @Within.leave r head [] tail consumed hw
      exact ⟨hw', fun x hx => ⟨_, rfl, hle x hx⟩⟩

/-- **Any moves.**  They keep the window on the half circle, and lead the last
number that left past all that leaves. -/
theorem Moves.within {w w' : Window} {es : List Event} (h : Moves p f w es w')
    (hw : w.Within r) :
    w'.Within r ∧ ∀ x ∈ w.consumed.toList ++ (es.flatMap Event.slots).map Slot.seq,
      ∃ c ∈ w'.consumed, SeqNum.ahead x r ≤ SeqNum.ahead c r := by
  induction h with
  | nil w =>
      refine ⟨hw, ?_⟩
      intro x hx
      exact ⟨x, by simpa using hx, Nat.le_refl _⟩
  | @cons w w' w'' e es move rest ih =>
      obtain ⟨hw', hfirst⟩ := move.within hw
      obtain ⟨hw'', hrest⟩ := ih hw'
      refine ⟨hw'', ?_⟩
      intro x hx
      rw [List.flatMap_cons, List.map_append, ← List.append_assoc] at hx
      rcases List.mem_append.mp hx with hx | hx
      · obtain ⟨c, hc, hle⟩ := hfirst x hx
        obtain ⟨c', hc', hle'⟩ := hrest c (List.mem_append_left _ (by simpa using hc))
        exact ⟨c', hc', hle.trans hle'⟩
      · exact hrest x (List.mem_append_right _ hx)

/-- What a packet does to a window on the half circle in front of `r`. -/
structure Ordered (r : SeqNum) (w : Window) (es : List Event) (w' : Window) : Prop where
  within : w'.Within r
  sorted : ReorderBuffer.SortedFrom r SeqNum.half (es.flatMap Event.slots)
  after : ∀ c ∈ w.consumed, ∀ s ∈ es.flatMap Event.slots, SeqNum.ahead c r < SeqNum.ahead s.seq r
  reach : ∀ x ∈ w.consumed.toList ++ (es.flatMap Event.slots).map Slot.seq,
    ∃ c ∈ w'.consumed, SeqNum.ahead x r ≤ SeqNum.ahead c r

/-- **One packet.**  If it comes from the half circle too, after the last number
that left, it keeps the window there, and packets leave in their order. -/
theorem Feeding.ordered {w w' : Window} {packet : Rtp.Packet} {es : List Event}
    (h : Feeding p f w packet (w', es)) (hw : w.Within r)
    (hnew : (∀ c ∈ w.consumed, SeqNum.order packet.seq c = .gt) →
      SeqNum.ahead packet.seq r < SeqNum.half ∧
        ∀ c ∈ w.consumed, SeqNum.ahead c r < SeqNum.ahead packet.seq r) :
    Ordered r w es w' := by
  cases h with
  | stale _ _ =>
      exact ⟨hw, ⟨.nil, by simp [Event.slots]⟩, by simp [Event.slots],
        fun x hx => ⟨x, by simpa [Event.slots] using hx, Nat.le_refl _⟩⟩
  | duplicate _ _ =>
      exact ⟨hw, ⟨.nil, by simp [Event.slots]⟩, by simp [Event.slots],
        fun x hx => ⟨x, by simpa [Event.slots] using hx, Nat.le_refl _⟩⟩
  | @taken buffer _ es fresh inserted moves =>
      obtain ⟨hnear, hafter⟩ := hnew fresh
      have hinserted := hw.insert (s := Slot.ofPacket f.codec packet) hnear hafter inserted
      obtain ⟨hw', hreach⟩ := moves.within hinserted
      obtain ⟨hsorted, -, hbehind⟩ := hinserted
      rw [moves.buffer_eq] at hsorted hbehind
      have hleft : (Event.classified packet :: es).flatMap Event.slots =
          es.flatMap Event.slots := by
        simp [Event.slots]
      refine ⟨hw', ?_, ?_, ?_⟩ <;> rw [hleft]
      · exact ⟨(List.pairwise_append.mp hsorted.1).1,
          fun s hs => hsorted.2 s (List.mem_append_left _ hs)⟩
      · exact fun c hc s hs => hbehind c hc s (List.mem_append_left _ hs)
      · exact hreach

/-- The last number that left can take the place of the reference. -/
theorem Within.rebase {w : Window} {c : SeqNum} (hw : w.Within r) (hc : w.consumed = some c) :
    w.Within c := by
  have hdist : ∀ s ∈ w.buffer, SeqNum.ahead s.seq c =
      SeqNum.ahead s.seq r - SeqNum.ahead c r :=
    fun s hs => SeqNum.ahead_of_le (Nat.le_of_lt (hw.behind c hc s hs))
  refine ⟨⟨?_, ?_⟩, ?_, ?_⟩
  · apply hw.sorted.1.imp_of_mem
    intro s t hs ht hlt
    have := hw.behind c hc s hs
    rw [hdist s hs, hdist t ht]
    omega
  · intro s hs
    have := hw.sorted.2 s hs
    rw [hdist s hs]
    omega
  · intro c' hc'
    obtain rfl := Option.some.inj (hc.symm.trans hc')
    simp [SeqNum.half]
  · intro c' hc' s hs
    obtain rfl := Option.some.inj (hc.symm.trans hc')
    have := hw.behind c hc s hs
    rw [SeqNum.ahead_self, hdist s hs]
    omega

end Window

/-- The distances of consecutive packets go on by one. -/
theorem Contiguous.ahead_chain {r : SeqNum} {row : List Slot} (h : Contiguous row)
    (hsorted : row.Pairwise (fun s t => SeqNum.ahead s.seq r < SeqNum.ahead t.seq r)) :
    (row.map (fun s => SeqNum.ahead s.seq r)).IsChain (fun a b => b = a + 1) := by
  induction row with
  | nil => exact .nil
  | cons s row ih =>
      cases row with
      | nil => exact .singleton _
      | cons t row =>
          obtain ⟨hnext, hrest⟩ := contiguous_cons_cons.mp h
          obtain ⟨hlt, hrow⟩ := List.pairwise_cons.mp hsorted
          have ht := hlt t List.mem_cons_self
          refine .cons_cons (SeqNum.ahead_of_follows hnext ?_) (ih hrest hrow)
          rintro rfl
          simp at ht

/-- A number of the circle and its position on the stream, counted without
wrapping. -/
structure Mark where
  seq : SeqNum
  position : Int
  deriving DecidableEq, Repr

namespace Mark

/-- The mark of a number, the short way around from `m`. -/
def mark (m : Mark) (s : SeqNum) : Mark :=
  ⟨s, m.position + SeqNum.offset s m.seq⟩

/-- The mark at the last number that left, once one has. -/
def moveTo (m : Mark) : Option SeqNum → Mark
  | some c => m.mark c
  | none => m

/-- Wrapped around the circle, the position is the number, if that of `origin`
is zero. -/
def Anchored (origin : SeqNum) (m : Mark) : Prop :=
  (2 ^ 16 : Int) ∣ m.position - ((m.seq.toNat : Int) - origin.toNat)

/-- The units among events, each with the marks of its packets. -/
def placed (m : Mark) (events : List Event) : List (AccessUnit × List Mark) :=
  events.filterMap (fun e =>
    e.unit?.map (fun unit => (unit, e.slots.map (fun s => m.mark s.seq))))

/-- The positions of the packets of units. -/
def positions (placed : List (AccessUnit × List Mark)) : List Int :=
  placed.flatMap (fun x => x.2.map Mark.position)

@[simp] theorem positions_nil : positions [] = [] := rfl

/-- Positions of two rows of units are those of the one and then of the other. -/
@[simp] theorem positions_append (front back : List (AccessUnit × List Mark)) :
    positions (front ++ back) = positions front ++ positions back :=
  List.flatMap_append

variable {m : Mark} {r origin : SeqNum}

/-- Marks that are set from an anchored one are anchored. -/
theorem Anchored.mark (h : m.Anchored origin) (s : SeqNum) : (m.mark s).Anchored origin := by
  have hs := s.toNat_lt
  have hm := m.seq.toNat_lt
  unfold Anchored at h ⊢
  unfold Mark.mark SeqNum.offset
  simp only [SeqNum.ahead_eq_mod, SeqNum.half]
  split <;> omega

/-- A mark that follows the window stays anchored. -/
theorem Anchored.moveTo (h : m.Anchored origin) (consumed : Option SeqNum) :
    (m.moveTo consumed).Anchored origin := by
  cases consumed with
  | none => exact h
  | some c => exact h.mark c

/-- On a half circle, positions differ as distances do. -/
theorem mark_position (hm : SeqNum.ahead m.seq r < SeqNum.half) {s : SeqNum}
    (hs : SeqNum.ahead s r < SeqNum.half) :
    (m.mark s).position = m.position + SeqNum.ahead s r - SeqNum.ahead m.seq r := by
  simp only [mark, SeqNum.offset_of_ahead hs hm]
  omega

/-- Marks apart, what is placed are the units with the numbers of their packets.
-/
theorem placed_units (m : Mark) (events : List Event) :
    (m.placed events).map (fun x => (x.1, x.2.map Mark.seq)) =
      events.filterMap (fun e => e.unit?.map (fun unit => (unit, e.slots.map Slot.seq))) := by
  simp [placed, List.map_filterMap, Function.comp_def, mark]

/-- The positions of units are positions of packets that leave. -/
theorem positions_sublist (m : Mark) (events : List Event) :
    (positions (m.placed events)).Sublist
      ((events.flatMap Event.slots).map (fun s => (m.mark s.seq).position)) := by
  induction events with
  | nil => simp [placed]
  | cons e events ih =>
      rw [List.flatMap_cons, List.map_append]
      unfold placed positions at ih ⊢
      cases hu : e.unit? with
      | none =>
          simp only [List.filterMap_cons, hu, Option.map_none]
          exact ih.trans (List.sublist_append_right _ _)
      | some unit =>
          simp only [List.filterMap_cons, hu, Option.map_some, List.flatMap_cons]
          refine List.Sublist.append ?_ ih
          rw [List.map_map]
          exact List.Sublist.refl _

variable {w w' : Window} {es : List Event}

/-- Packets that leave stand at their distances from the reference. -/
theorem mark_slot (hm : SeqNum.ahead m.seq r < SeqNum.half) (hord : Window.Ordered r w es w') :
    ∀ s ∈ es.flatMap Event.slots,
      (m.mark s.seq).position = m.position + SeqNum.ahead s.seq r - SeqNum.ahead m.seq r :=
  fun s hs => mark_position hm (hord.sorted.2 s hs)

/-- Units come in the order of their packets. -/
theorem positions_increasing (hm : SeqNum.ahead m.seq r < SeqNum.half)
    (hord : Window.Ordered r w es w') : (positions (m.placed es)).Pairwise (· < ·) := by
  have hplace := mark_slot hm hord
  apply List.Pairwise.sublist (m.positions_sublist es)
  rw [List.pairwise_map]
  apply hord.sorted.1.imp_of_mem
  intro s t hs ht hlt
  rw [hplace s hs, hplace t ht]
  omega

/-- The packets of a unit take consecutive positions. -/
theorem placed_consecutive {f : Format} (hm : SeqNum.ahead m.seq r < SeqNum.half)
    (hord : Window.Ordered r w es w')
    (hforms : ∀ e ∈ es, ∀ unit, e.unit? = some unit → Forms f e.slots unit) :
    ∀ x ∈ m.placed es, (x.2.map Mark.position).IsChain (fun a b => b = a + 1) := by
  intro x hx
  obtain ⟨e, he, hplaced⟩ := List.mem_filterMap.mp hx
  obtain ⟨unit, hunit, rfl⟩ := Option.map_eq_some_iff.mp hplaced
  have hsub : e.slots.Sublist (es.flatMap Event.slots) := by
    rw [List.flatMap_def]
    exact List.sublist_flatten_of_mem (List.mem_map_of_mem he)
  have hrow := (hforms e he unit hunit).contiguous.ahead_chain (hord.sorted.1.sublist hsub)
  rw [List.map_map]
  rw [List.isChain_map] at hrow ⊢
  apply hrow.imp_of_mem_imp
  intro s t hs ht hnext
  simp only [Function.comp_apply]
  rw [mark_slot hm hord s (hsub.subset hs), mark_slot hm hord t (hsub.subset ht)]
  omega

/-- All marks of the units are anchored where the first mark is. -/
theorem placed_anchored (h : m.Anchored origin) (es : List Event) :
    ∀ x ∈ m.placed es, ∀ m' ∈ x.2, m'.Anchored origin := by
  intro x hx m' hm'
  obtain ⟨e, he, hplaced⟩ := List.mem_filterMap.mp hx
  obtain ⟨unit, hunit, rfl⟩ := Option.map_eq_some_iff.mp hplaced
  obtain ⟨s, hs, rfl⟩ := List.mem_map.mp hm'
  exact h.mark s.seq

/-- Units come after the last number that had left. -/
theorem lt_of_mem_positions (hm : SeqNum.ahead m.seq r < SeqNum.half)
    (hord : Window.Ordered r w es w') (hc : w.consumed = some m.seq) :
    ∀ x ∈ positions (m.placed es), m.position < x := by
  intro x hx
  obtain ⟨s, hs, rfl⟩ := List.mem_map.mp ((m.positions_sublist es).subset hx)
  have := hord.after m.seq hc s hs
  rw [mark_slot hm hord s hs]
  omega

/-- Units come no later than the last number that has left then. -/
theorem exists_ge_of_mem_positions (hm : SeqNum.ahead m.seq r < SeqNum.half)
    (hord : Window.Ordered r w es w') :
    ∀ x ∈ positions (m.placed es), ∃ c ∈ w'.consumed, x ≤ (m.mark c).position := by
  intro x hx
  obtain ⟨s, hs, rfl⟩ := List.mem_map.mp ((m.positions_sublist es).subset hx)
  obtain ⟨c, hc, hle⟩ := hord.reach s.seq
    (List.mem_append_right _ (List.mem_map_of_mem hs))
  refine ⟨c, hc, ?_⟩
  rw [mark_slot hm hord s hs, mark_position hm (hord.within.near c hc)]
  omega

/-- No unit comes before anything has left. -/
theorem positions_eq_nil (hm : SeqNum.ahead m.seq r < SeqNum.half)
    (hord : Window.Ordered r w es w') (hnone : w'.consumed = none) :
    positions (m.placed es) = [] := by
  apply List.eq_nil_iff_forall_not_mem.mpr
  intro x hx
  obtain ⟨c, hc, -⟩ := exists_ge_of_mem_positions hm hord x hx
  simp [hnone] at hc

/-- The last number that left does not go back. -/
theorem position_le_mark (hm : SeqNum.ahead m.seq r < SeqNum.half)
    (hord : Window.Ordered r w es w') (hc : w.consumed = some m.seq) {c : SeqNum}
    (hc' : w'.consumed = some c) : m.position ≤ (m.mark c).position := by
  obtain ⟨c₂, hc₂, hreach⟩ := hord.reach m.seq (by simp [hc])
  obtain rfl := Option.some.inj (hc'.symm.trans hc₂)
  rw [mark_position hm (hord.within.near c hc')]
  omega

end Mark

/-- A window beside its mark and the units that came out of it. -/
structure Unwrapping where
  window : Window := {}
  /-- Unset until a packet comes in; the first one stands at zero. -/
  mark : Option Mark := none
  placed : List (AccessUnit × List Mark) := []

namespace Unwrapping

/-- Feeds one packet.  Positions are counted from the last number that had left
before, or from the first packet while none has. -/
def step (p : Policy) (f : Format) (u : Unwrapping) (packet : Rtp.Packet) : Unwrapping :=
  let mark := u.mark.getD ⟨packet.seq, 0⟩
  let fed := u.window.feed p f packet
  { window := fed.1
    mark := some (mark.moveTo fed.1.consumed)
    placed := u.placed ++ mark.placed fed.2 }

/-- Feeds packets to an empty window. -/
def ofPackets (p : Policy) (f : Format) (fed : List Rtp.Packet) : Unwrapping :=
  fed.foldl (step p f) {}

/-- The last packet is a step from where all others led. -/
theorem ofPackets_concat (p : Policy) (f : Format) (fed : List Rtp.Packet)
    (packet : Rtp.Packet) :
    ofPackets p f (fed ++ [packet]) = step p f (ofPackets p f fed) packet := by
  simp [ofPackets]

/-- The window and the units are those of feeding the packets. -/
theorem ofPackets_feedAll (p : Policy) (f : Format) (fed : List Rtp.Packet) :
    (ofPackets p f fed).window = (Window.feedAll p f {} fed).1 ∧
      (ofPackets p f fed).placed.map (fun x => (x.1, x.2.map Mark.seq)) =
        (Window.feedAll p f {} fed).2.filterMap
          (fun e => e.unit?.map (fun unit => (unit, e.slots.map Slot.seq))) := by
  induction fed using List.reverseRecOn with
  | nil => simp [ofPackets, Window.feedAll]
  | append_singleton fed packet ih =>
      rw [ofPackets_concat, Window.feedAll_concat]
      simp [step, ih, Mark.placed_units]

/-- The state of a run whose first number is `origin`, and that opened on the
half circle in front of `base`. -/
structure Coherent (origin base : SeqNum) (u : Unwrapping) : Prop where
  within : u.window.Within (u.window.consumed.getD base)
  near : ∀ m ∈ u.mark, SeqNum.ahead m.seq (u.window.consumed.getD base) < SeqNum.half
  marked : ∀ c ∈ u.window.consumed, ∃ m ∈ u.mark, m.seq = c ∧
    ∀ x ∈ Mark.positions u.placed, x ≤ m.position
  opening : u.window.consumed = none → Mark.positions u.placed = []
  increasing : (Mark.positions u.placed).Pairwise (· < ·)
  consecutive : ∀ x ∈ u.placed, (x.2.map Mark.position).IsChain (fun a b => b = a + 1)
  anchoredMark : ∀ m ∈ u.mark, m.Anchored origin
  anchored : ∀ x ∈ u.placed, ∀ m ∈ x.2, m.Anchored origin

/-- In the beginning everything fits together. -/
theorem coherent_empty (origin base : SeqNum) : Coherent origin base {} :=
  ⟨Window.within_empty base, by simp, by simp, by simp, by simp, by simp, by simp, by simp⟩

variable {p : Policy} {f : Format} {origin base : SeqNum} {u : Unwrapping}

/-- The mark that the next packet is placed by. -/
theorem Coherent.near_getD (h : u.Coherent origin base) {packet : Rtp.Packet}
    (hnew : u.window.consumed = none → SeqNum.ahead packet.seq base < SeqNum.half) :
    SeqNum.ahead (u.mark.getD ⟨packet.seq, 0⟩).seq (u.window.consumed.getD base) <
      SeqNum.half := by
  cases hm : u.mark with
  | some m => exact h.near m hm
  | none =>
      cases hc : u.window.consumed with
      | none => exact hnew hc
      | some c =>
          obtain ⟨m, hm', -⟩ := h.marked c hc
          simp [hm] at hm'

/-- A packet comes from the half circle in front of the reference. -/
theorem Coherent.ordered (h : u.Coherent origin base) {packet : Rtp.Packet}
    (hnew : u.window.consumed = none → SeqNum.ahead packet.seq base < SeqNum.half) :
    Window.Ordered (u.window.consumed.getD base) u.window (u.window.feed p f packet).2
      (u.window.feed p f packet).1 := by
  apply (Window.feed_feeding u.window packet).ordered h.within
  intro fresh
  cases hc : u.window.consumed with
  | none => exact ⟨hnew hc, by simp⟩
  | some c =>
      obtain ⟨hpos, hlt⟩ := SeqNum.order_eq_gt_iff.mp (fresh c hc)
      refine ⟨hlt, ?_⟩
      intro c' hc'
      obtain rfl := Option.mem_some.mp hc'
      simpa using hpos

/-- The mark that is moved by the next packet is anchored, also if that packet is
the first. -/
theorem Coherent.anchored_getD (h : u.Coherent origin base) {packet : Rtp.Packet}
    (hfirst : u.mark = none → packet.seq = origin) :
    (u.mark.getD ⟨packet.seq, 0⟩).Anchored origin := by
  cases hmark : u.mark with
  | some m => exact h.anchoredMark m hmark
  | none =>
      rw [Option.getD_none, hfirst hmark]
      simp [Mark.Anchored]

/-- While nothing has left, no unit is placed; later the mark is at the last
number. -/
theorem Coherent.le_getD (h : u.Coherent origin base) (packet : Rtp.Packet) :
    ∀ x ∈ Mark.positions u.placed, x ≤ (u.mark.getD ⟨packet.seq, 0⟩).position ∧
      u.window.consumed = some (u.mark.getD ⟨packet.seq, 0⟩).seq := by
  intro x hx
  cases hc : u.window.consumed with
  | none => simp [h.opening hc] at hx
  | some c =>
      obtain ⟨m, hmark, rfl, hle⟩ := h.marked c hc
      simpa [Option.mem_def.mp hmark] using hle x hx

/-- **One packet** keeps the run coherent. -/
theorem Coherent.step (h : u.Coherent origin base) {packet : Rtp.Packet}
    (hnew : u.window.consumed = none → SeqNum.ahead packet.seq base < SeqNum.half)
    (hfirst : u.mark = none → packet.seq = origin) :
    (u.step p f packet).Coherent origin base := by
  have hm := h.near_getD hnew
  have hord := h.ordered (p := p) (f := f) hnew
  have hforms := (Window.feed_feeding (p := p) (f := f) u.window packet).forms
  have hanchor := h.anchored_getD hfirst
  have hold := h.le_getD packet
  unfold Unwrapping.step
  generalize u.window.feed p f packet = result at hord hforms ⊢
  generalize u.mark.getD ⟨packet.seq, 0⟩ = m at hm hold hanchor ⊢
  generalize href : u.window.consumed.getD base = r at hm hord
  obtain ⟨w', es⟩ := result
  -- the mark only moves on, so what is placed now lies behind what was placed before
  have hincreasing : (Mark.positions (u.placed ++ m.placed es)).Pairwise (· < ·) := by
    rw [Mark.positions_append, List.pairwise_append]
    refine ⟨h.increasing, Mark.positions_increasing hm hord, ?_⟩
    intro x hx y hy
    have hlt := Mark.lt_of_mem_positions hm hord (hold x hx).2 y hy
    exact Int.lt_of_le_of_lt (hold x hx).1 hlt
  have hconsecutive : ∀ x ∈ u.placed ++ m.placed es,
      (x.2.map Mark.position).IsChain (fun a b => b = a + 1) :=
    List.forall_mem_append.mpr ⟨h.consecutive, Mark.placed_consecutive hm hord hforms⟩
  have hanchored : ∀ x ∈ u.placed ++ m.placed es, ∀ m' ∈ x.2, m'.Anchored origin :=
    List.forall_mem_append.mpr ⟨h.anchored, Mark.placed_anchored hanchor es⟩
  have hmoved : ∀ m' ∈ some (m.moveTo w'.consumed), m'.Anchored origin := by
    simpa using hanchor.moveTo w'.consumed
  cases hc' : w'.consumed with
  | none =>
      -- nothing has left yet, and the mark is where it was
      have hc : u.window.consumed = none := by
        by_contra hsome
        obtain ⟨c, hc⟩ := Option.ne_none_iff_exists'.mp hsome
        obtain ⟨c', hc'', -⟩ := hord.reach c (by simp [hc])
        simp [hc'] at hc''
      have hr : r = base := by simpa [hc] using href.symm
      subst hr
      exact
        { within := by simpa [hc'] using hord.within
          near := by simpa [hc', Mark.moveTo] using hm
          marked := by simp [hc']
          opening := fun _ => by simp [h.opening hc, Mark.positions_eq_nil hm hord hc']
          increasing := hincreasing
          consecutive := hconsecutive
          anchoredMark := by simpa [hc'] using hmoved
          anchored := hanchored }
  | some c =>
      have hlast : ∀ x ∈ Mark.positions (u.placed ++ m.placed es),
          x ≤ (m.mark c).position := by
        rw [Mark.positions_append, List.forall_mem_append]
        constructor
        · intro x hx
          obtain ⟨hle, hc⟩ := hold x hx
          exact Int.le_trans hle (Mark.position_le_mark hm hord hc hc')
        · intro x hx
          obtain ⟨c₂, hc₂, hle⟩ := Mark.exists_ge_of_mem_positions hm hord x hx
          obtain rfl := Option.some.inj (hc'.symm.trans hc₂)
          exact hle
      exact
        { within := by simpa [hc'] using hord.within.rebase hc'
          near := by simp [hc', Mark.moveTo, Mark.mark, SeqNum.half]
          marked := by simpa [hc', Mark.moveTo, Mark.mark] using hlast
          opening := by simp [hc']
          increasing := hincreasing
          consecutive := hconsecutive
          anchoredMark := by simpa [hc'] using hmoved
          anchored := hanchored }

end Unwrapping

/-- The number of the first packet, if there is one. -/
theorem exists_first_seq (fed : List Rtp.Packet) : ∃ s, ∀ first ∈ fed.head?, first.seq = s := by
  cases fed with
  | nil => exact ⟨0, by simp⟩
  | cons first _ => exact ⟨first.seq, by simp⟩

/-- While nothing has left, packets come from the half circle in front of
`base`. -/
def Window.OpensFrom (p : Policy) (f : Format) (base : SeqNum) (fed : List Rtp.Packet) : Prop :=
  ∀ before packet after, fed = before ++ packet :: after →
    (feedAll p f {} before).1.consumed = none → SeqNum.ahead packet.seq base < SeqNum.half

section Opening

variable {p : Policy} {f : Format} {base : SeqNum} {fed : List Rtp.Packet}

/-- What opens with a packet that is no fragment opens from there. -/
theorem Window.opensFrom_whole {first : Rtp.Packet} (rest : List Rtp.Packet)
    (h : ¬ (Placement.ofBody f.codec first.body).isFragment) :
    OpensFrom p f first.seq (first :: rest) := by
  intro before packet after heq hnone
  cases before with
  | nil =>
      obtain ⟨rfl, -⟩ := List.cons.inj heq
      simp [SeqNum.half]
  | cons q before =>
      obtain ⟨rfl, -⟩ := List.cons.inj heq
      have hsome : (feed p f {} first).1.consumed.isSome := by
        rw [feed_empty_whole h]
        rfl
      have hlast := isSome_consumed_feedAll (p := p) (f := f) hsome before
      simp only [feedAll] at hnone
      simp [hnone] at hlast

/-- **Any packets** leave a coherent state, if they open from a half circle. -/
theorem Unwrapping.coherent_ofPackets {origin : SeqNum} (hopen : Window.OpensFrom p f base fed)
    (horigin : ∀ first ∈ fed.head?, first.seq = origin) :
    (ofPackets p f fed).Coherent origin base := by
  induction fed using List.reverseRecOn with
  | nil => exact coherent_empty origin base
  | append_singleton fed packet ih =>
      have hbefore : Window.OpensFrom p f base fed := by
        intro before q after heq
        exact hopen before q (after ++ [packet]) (by simp [heq])
      have horigin' : ∀ first ∈ fed.head?, first.seq = origin := by
        intro first hfirst
        exact horigin first (by simp [Option.mem_def.mp hfirst])
      rw [ofPackets_concat]
      refine (ih hbefore horigin').step ?_ ?_
      · rw [(ofPackets_feedAll p f fed).1]
        exact hopen fed packet [] rfl
      · intro hmark
        cases fed using List.reverseRecOn with
        | nil => exact horigin packet rfl
        | append_singleton fed q _ => simp [ofPackets_concat, step] at hmark

end Opening

namespace Reassembler

variable {codec : Codec} {clockRate : UInt32} {policy : Policy}
variable {r : Reassembler} {fed : List Rtp.Packet} {events : List Event}

/-- **The window and the order of emission.**  If what was fed before anything
left comes from half a circle, then the distances of the packets that wait from
the last number that left increase from head to tail and are on the half circle
in front of it; no packet moves that number back, or by half a circle; and the
units stand, in the order of emission, at increasing positions of the stream,
which share none and are those of their packets' numbers. -/
theorem Trace.window_order (t : Trace codec clockRate policy r fed events)
    (opening : (∃ base, Window.OpensFrom policy (Format.ofClockRate codec clockRate) base fed) ∨
      ∃ first ∈ fed.head?, ¬ (Placement.ofBody codec first.body).isFragment) :
    (∀ c ∈ r.window.consumed,
      (r.window.buffer.seqs.map (SeqNum.ahead · c)).Pairwise (· < ·) ∧
      ∀ s ∈ r.window.buffer.seqs, 1 ≤ SeqNum.ahead s c ∧ SeqNum.ahead s c ≤ 2 ^ 15 - 1) ∧
    (∀ c ∈ r.window.consumed, ∀ packet,
      ∃ c' ∈ (r.feed packet).1.window.consumed, SeqNum.ahead c' c < 2 ^ 15) ∧
    let placed :=
      (Unwrapping.ofPackets policy (Format.ofClockRate codec clockRate) fed).placed
    placed.map (fun x => (x.1, x.2.map Mark.seq)) =
        events.filterMap (fun e => e.unit?.map (fun unit => (unit, e.slots.map Slot.seq))) ∧
      (∀ x ∈ placed, ∀ m ∈ x.2, ∀ first ∈ fed.head?, m.Anchored first.seq) ∧
      (∀ x ∈ placed, (x.2.map Mark.position).IsChain (fun a b => b = a + 1)) ∧
      (Mark.positions placed).Pairwise (· < ·) := by
  obtain ⟨base, hopen⟩ :
      ∃ base, Window.OpensFrom policy (Format.ofClockRate codec clockRate) base fed := by
    rcases opening with hbase | ⟨first, hfirst, hwhole⟩
    · exact hbase
    · obtain ⟨rest, rfl⟩ := List.head?_eq_some_iff.mp hfirst
      exact ⟨first.seq, Window.opensFrom_whole rest hwhole⟩
  obtain ⟨origin, horigin⟩ : ∃ origin, ∀ first ∈ fed.head?, first.seq = origin := by
    cases fed with
    | nil => exact ⟨0, by simp⟩
    | cons first _ => exact ⟨first.seq, by simp⟩
  have h := Unwrapping.coherent_ofPackets hopen horigin
  obtain ⟨hwindow, hunits⟩ :=
    Unwrapping.ofPackets_feedAll policy (Format.ofClockRate codec clockRate) fed
  rw [t.feedAll_eq] at hwindow hunits
  have hwithin : ∀ c ∈ r.window.consumed, r.window.Within c := by
    intro c hc
    have hw := h.within
    rw [hwindow] at hw
    exact hw.rebase hc
  refine ⟨?_, ?_, hunits, ?_, h.consecutive, h.increasing⟩
  · intro c hc
    obtain ⟨⟨hsorted, hnear⟩, -, hbehind⟩ := hwithin c hc
    constructor
    · rw [ReorderBuffer.seqs, List.map_map, List.pairwise_map]
      exact hsorted
    · intro s hs
      obtain ⟨slot, hslot, rfl⟩ := List.mem_map.mp hs
      have hpos := hbehind c hc slot hslot
      have hlt := hnear slot hslot
      unfold SeqNum.half at hlt
      omega
  · intro c hc packet
    have hord : Window.Ordered c r.window (r.feed packet).2 (r.feed packet).1.window := by
      apply (Window.feed_feeding r.window packet).ordered (hwithin c hc)
      intro fresh
      obtain ⟨hpos, hlt⟩ := SeqNum.order_eq_gt_iff.mp (fresh c hc)
      refine ⟨hlt, ?_⟩
      intro c' hc'
      obtain rfl := Option.some.inj (hc.symm.trans hc')
      simpa using hpos
    obtain ⟨c', hc', -⟩ := hord.reach c (by simp [Option.mem_def.mp hc])
    exact ⟨c', hc', hord.within.near c' hc'⟩
  · intro x hx m hm first hfirst
    rw [horigin first hfirst]
    exact h.anchored x hx m hm

/-- An end that overtakes its start across the wrap of the numbers, and a packet
that waits behind a hole: the unit stands at the positions before and at that of
the first packet fed. -/
theorem window_order_overtaken :
    ∃ fed r events,
      fed = [.simple 96 true 0 9090 1 [0x7C, 0x45, 0xC0],
        .simple 96 false 65535 9090 1 [0x7C, 0x85, 0xA0],
        .simple 96 true 3 9090 1 [0x65, 0xB0]] ∧
      Trace .h264 90000 {} r fed events ∧
      (∃ base, Window.OpensFrom {} (Format.ofClockRate .h264 90000) base fed) ∧
      r.window.consumed = some 0 ∧ r.window.buffer.seqs = [3] ∧
      Mark.positions (Unwrapping.ofPackets {} (Format.ofClockRate .h264 90000) fed).placed =
        [-1, 0] ∧
      (Mark.positions
        (Unwrapping.ofPackets {} (Format.ofClockRate .h264 90000) fed).placed).Pairwise
          (· < ·) := by
  obtain ⟨r, t⟩ := exists_trace_feedAll .h264 {} (by decide : (1000 : UInt32) ≤ 90000)
    [.simple 96 true 0 9090 1 [0x7C, 0x45, 0xC0], .simple 96 false 65535 9090 1 [0x7C, 0x85, 0xA0],
      .simple 96 true 3 9090 1 [0x65, 0xB0]]
  have hopen : Window.OpensFrom {} (Format.ofClockRate .h264 90000) 65535
      [.simple 96 true 0 9090 1 [0x7C, 0x45, 0xC0],
        .simple 96 false 65535 9090 1 [0x7C, 0x85, 0xA0],
        .simple 96 true 3 9090 1 [0x65, 0xB0]] := by
    intro before packet after heq hnone
    rcases before with _ | ⟨q₀, _ | ⟨q₁, _ | ⟨q₂, before⟩⟩⟩
    · obtain ⟨rfl, -⟩ := List.cons.inj heq
      decide
    · obtain ⟨rfl, hrest⟩ := List.cons.inj heq
      obtain ⟨rfl, -⟩ := List.cons.inj hrest
      decide
    · obtain ⟨rfl, hrest⟩ := List.cons.inj heq
      obtain ⟨rfl, -⟩ := List.cons.inj hrest
      exact absurd hnone (by decide +kernel)
    · simp at heq
  have hwindow : r.window = _ := (congrArg Prod.fst t.feedAll_eq).symm
  have horder := t.window_order (Or.inl ⟨65535, hopen⟩)
  refine ⟨_, r, _, rfl, t, ⟨65535, hopen⟩, ?_, ?_, by decide +kernel, horder.2.2.2.2.2⟩
  · rw [hwindow]
    decide +kernel
  · rw [hwindow]
    decide +kernel

end Reassembler

end RtpReassembly
