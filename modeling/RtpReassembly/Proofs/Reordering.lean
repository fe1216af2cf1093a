import RtpReassembly.Proofs.Standing

/-!
# Reordering and duplication

A stream may come out of order, within the tolerance of its policy, and with
copies.  Nothing that becomes of its packets depends on that.

* `Reordering` says which arrivals of a stream are meant;
* `taken_of_complete`: after any of them, the window is that of the positions that
  have come;
* `Reordering.output_unchanged` is the main statement.
-/

namespace RtpReassembly

/-- A stream with these placements may open with its first packet, or with a
middle or an end that goes on with it directly. -/
def MayOpen (placements : List Placement) (a : Nat) : Prop :=
  a = 0 ∨
    placements[0]? = some .fragmentStart ∧
    (∀ j < a, 0 < j → placements[j]? = some .fragmentMiddle) ∧
    (placements[a]? = some .fragmentMiddle ∨ placements[a]? = some .fragmentEnd)

instance (placements : List Placement) (a : Nat) : Decidable (MayOpen placements a) := by
  unfold MayOpen; infer_instance

section Departures

variable (p : Policy) (f : Format)

/-- The packets that have left, in the order of leaving. -/
def departures (fed : List Rtp.Packet) : List Rtp.Packet :=
  ((Window.feedAll p f {} fed).2.flatMap Event.slots).map Slot.packet

/-- Arrivals of a stream, by positions, which the policy copes with.  Every
packet arrives, maybe with copies; at most `tolerance` others overtake it; and
whatever arrives is less than half a circle from the last packet that has left,
or, while none has, from all that have arrived. -/
structure Reordering (stream : List Rtp.Packet) (arrivals : List (Fin stream.length)) :
    Prop where
  consecutive : SeqNum.Consecutive (stream.map Rtp.Packet.seq)
  opening : ∀ first ∈ stream.head?, ¬ (Placement.ofBody f.codec first.body).isContinuation
  discards : p.discardOrphans
  room : p.tolerance +
    longestOpenRun (stream.map (fun q => Placement.ofBody f.codec q.body)) ≤ p.capacity
  complete : ∀ i, i ∈ arrivals
  start : ∀ a ∈ arrivals.head?,
    MayOpen (stream.map (fun q => Placement.ofBody f.codec q.body)) a
  displaced : ∀ (before : List (Fin stream.length)) (i : Fin stream.length),
    before ++ [i] <+: arrivals → i ∉ before →
      (before.toFinset.filter (i < ·)).card ≤ p.tolerance
  nearOpening : ∀ (before : List (Fin stream.length)) (i : Fin stream.length),
    before ++ [i] <+: arrivals →
      departures p f (before.map stream.get) = [] → ∀ j ∈ before, Close i j
  nearLast : ∀ (before : List (Fin stream.length)) (i c : Fin stream.length),
    before ++ [i] <+: arrivals →
      departures p f (before.map stream.get) = stream.take (c + 1) → Close i c

/-- What holds at every arrival can be checked place by place. -/
theorem forall_arrival_iff {α : Type} {arrivals : List α} {P : List α → α → Prop} :
    (∀ before i, before ++ [i] <+: arrivals → P before i) ↔
      ∀ k : Fin arrivals.length, P (arrivals.take k) (arrivals.get k) := by
  constructor
  · intro h k
    apply h _ _
    rw [List.get_eq_getElem, List.take_concat_get' arrivals k k.isLt]
    exact List.take_prefix _ _
  · rintro h before i ⟨after, rfl⟩
    have := h ⟨before.length, by simp⟩
    simpa using this

instance (stream : List Rtp.Packet) (arrivals : List (Fin stream.length)) :
    Decidable (Reordering p f stream arrivals) :=
  decidable_of_iff
    (SeqNum.Consecutive (stream.map Rtp.Packet.seq) ∧
      (∀ first ∈ stream.head?, ¬ (Placement.ofBody f.codec first.body).isContinuation) ∧
      p.discardOrphans ∧
      p.tolerance + longestOpenRun (stream.map (fun q => Placement.ofBody f.codec q.body)) ≤
        p.capacity ∧
      (∀ i, i ∈ arrivals) ∧
      (∀ a ∈ arrivals.head?,
        MayOpen (stream.map (fun q => Placement.ofBody f.codec q.body)) a) ∧
      ∀ k : Fin arrivals.length,
        (arrivals.get k ∉ arrivals.take k →
          ((arrivals.take k).toFinset.filter (arrivals.get k < ·)).card ≤ p.tolerance) ∧
        (departures p f ((arrivals.take k).map stream.get) = [] →
          ∀ j ∈ arrivals.take k, Close (arrivals.get k) j) ∧
        ∀ c : Fin stream.length,
          departures p f ((arrivals.take k).map stream.get) = stream.take (c + 1) →
            Close (arrivals.get k) c) (by
    rw [← forall_arrival_iff (P := fun before i =>
      (i ∉ before → (before.toFinset.filter (i < ·)).card ≤ p.tolerance) ∧
        (departures p f (before.map stream.get) = [] → ∀ j ∈ before, Close i j) ∧
        ∀ c : Fin stream.length,
          departures p f (before.map stream.get) = stream.take (c + 1) → Close i c)]
    constructor
    · rintro ⟨h₁, h₂, h₃, h₄, h₅, h₆, h⟩
      exact ⟨h₁, h₂, h₃, h₄, h₅, h₆, fun b i hb => (h b i hb).1, fun b i hb => (h b i hb).2.1,
        fun b i c hb => (h b i hb).2.2 c⟩
    · rintro ⟨h₁, h₂, h₃, h₄, h₅, h₆, h₇, h₈, h₉⟩
      exact ⟨h₁, h₂, h₃, h₄, h₅, h₆,
        fun b i hb => ⟨h₇ b i hb, h₈ b i hb, fun c => h₉ b i c hb⟩⟩)

end Departures

/-- The positions that have come. -/
def positions {n : Nat} (before : List (Fin n)) : Finset Nat :=
  (before.map Fin.val).toFinset

/-- A position has come exactly when its packet is among the arrivals. -/
theorem mem_positions {n j : Nat} {before : List (Fin n)} :
    j ∈ positions before ↔ ∃ i ∈ before, i.val = j := by
  simp [positions]

/-- Once all have arrived there are as many positions as packets; copies add none.
-/
theorem card_positions {n : Nat} {arrivals : List (Fin n)} (complete : ∀ i, i ∈ arrivals) :
    (positions arrivals).card = n := by
  have hall : positions arrivals = Finset.range n := by
    ext j
    rw [mem_positions, Finset.mem_range]
    exact ⟨fun ⟨i, _, hi⟩ => hi ▸ i.isLt, fun hj => ⟨⟨j, hj⟩, complete _, rfl⟩⟩
  rw [hall, Finset.card_range]

/-- An arrival adds its own position. -/
theorem positions_concat {n : Nat} (before : List (Fin n)) (i : Fin n) :
    positions (before ++ [i]) = insert i.val (positions before) := by
  ext j
  simp only [mem_positions, Finset.mem_insert, List.mem_append, List.mem_singleton]
  grind

open Window

variable {p : Policy} {f : Format} {stream : List Rtp.Packet}
variable {arrivals before : List (Fin stream.length)} {m : Nat}

/-- What has come of a stream is taken in: the window is that of its positions,
what became of the packets is what becomes of them in order, and copies were
refused. -/
structure Taken (p : Policy) (f : Format) (stream : List Rtp.Packet)
    (before : List (Fin stream.length)) (m : Nat) : Prop where
  standing : Standing f (stream.map (Slot.ofPacket f.codec)) (positions before) m
    (feedAll p f {} (before.map stream.get)).1
  serial : (feedAll p f {} (before.map stream.get)).2.flatMap Event.serial =
    (inOrder f (stream.map (Slot.ofPacket f.codec)) m).2
  refusals : (positions before).card +
    (feedAll p f {} (before.map stream.get)).2.countP Event.isRefusal = before.length

/-- A policy for a stream. -/
structure Suits (p : Policy) (f : Format) (slots : List Slot) : Prop where
  isStream : IsStream f slots
  discards : p.discardOrphans
  room : p.tolerance + longestOpenRun (slots.map Slot.placement) ≤ p.capacity

/-- **One arrival** is taken in. -/
theorem Taken.step (h : Taken p f stream before m)
    (suits : Suits p f (stream.map (Slot.ofPacket f.codec))) (i : Fin stream.length)
    (near : Near f (stream.map (Slot.ofPacket f.codec)) (positions before) m i)
    (orderly : Orderly p (stream.map (Slot.ofPacket f.codec)) (positions (before ++ [i]))) :
    ∃ m', Taken p f stream (before ++ [i]) m' := by
  obtain ⟨hstanding, hserial, hrefusals⟩ := h
  have hs : (stream.map (Slot.ofPacket f.codec))[i.val]? =
      some (Slot.ofPacket f.codec (stream.get i)) := by
    simp
  have hfeed : feedAll p f {} ((before ++ [i]).map stream.get) =
      ((feed p f (feedAll p f {} (before.map stream.get)).1 (stream.get i)).1,
        (feedAll p f {} (before.map stream.get)).2 ++
          (feed p f (feedAll p f {} (before.map stream.get)).1 (stream.get i)).2) := by
    rw [List.map_append, List.map_singleton, feedAll_concat]
  by_cases hA : i.val ∈ positions before
  · obtain ⟨hw, hnone, hcount⟩ := hstanding.feed_copy (p := p) suits.isStream near hs hA
    have hpositions : positions (before ++ [i]) = positions before := by
      rw [positions_concat, Finset.insert_eq_of_mem hA]
    refine ⟨m, ?_, ?_, ?_⟩
    · rw [hfeed, hpositions, hw]
      exact hstanding
    · rw [hfeed, List.flatMap_append, hnone, List.append_nil, hserial]
    · rw [hfeed, hpositions, List.countP_append, hcount, List.length_append,
        List.length_singleton]
      omega
  · rw [positions_concat] at orderly
    obtain ⟨m', hstanding', hserial', hcount⟩ :=
      hstanding.feed_new suits.isStream near hs hA orderly suits.discards suits.room
    refine ⟨m', ?_, ?_, ?_⟩
    · rw [hfeed, positions_concat]
      exact hstanding'
    · rw [hfeed, List.flatMap_append, hserial, ← hserial']
    · rw [hfeed, positions_concat, Finset.card_insert_of_notMem hA, List.countP_append, hcount,
        List.length_append, List.length_singleton]
      omega

/-- **Any arrivals** are taken in, up to the end of the stream if all its packets
are among them. -/
theorem taken_of_complete (complete : ∀ i, i ∈ arrivals)
    (suits : Suits p f (stream.map (Slot.ofPacket f.codec)))
    (near : ∀ (before : List (Fin stream.length)) (i : Fin stream.length) m,
      before ++ [i] <+: arrivals → Taken p f stream before m →
      Near f (stream.map (Slot.ofPacket f.codec)) (positions before) m i)
    (orderly : ∀ (before : List (Fin stream.length)) i, before ++ [i] <+: arrivals →
      Orderly p (stream.map (Slot.ofPacket f.codec)) (positions (before ++ [i]))) :
    Taken p f stream arrivals stream.length := by
  have hfront : ∀ before, before <+: arrivals → ∃ m, Taken p f stream before m := by
    intro before
    induction before using List.reverseRecOn with
    | nil => exact fun _ => ⟨0, standing_empty, rfl, rfl⟩
    | append_singleton before i ih =>
        intro hpre
        obtain ⟨m, htaken⟩ := ih ((List.prefix_append before [i]).trans hpre)
        exact htaken.step suits i (near before i m hpre htaken) (orderly before i hpre)
  obtain ⟨m, htaken⟩ := hfront arrivals (List.prefix_refl _)
  have hle := htaken.standing.le_length
  rw [List.length_map] at hle
  have hm : m = stream.length := by
    refine Nat.le_antisymm hle (Nat.le_of_not_lt ?_)
    intro hlt
    exact htaken.standing.missing (mem_positions.mpr ⟨⟨m, hlt⟩, complete _, rfl⟩)
  exact hm ▸ htaken

/-- The positions before one of a stream in order. -/
theorem positions_inOrder {n : Nat} {before : List (Fin n)} {i : Fin n}
    (h : before ++ [i] <+: List.finRange n) : positions before = Finset.range i := by
  have hrange := h.map Fin.val
  rw [List.map_coe_finRange_eq_range, List.map_append, List.map_singleton,
    List.prefix_iff_eq_take, List.take_range] at hrange
  have hlen := congrArg List.length hrange
  simp only [List.length_append, List.length_map, List.length_singleton,
    List.length_range] at hrange hlen
  rw [← hlen, List.range_succ] at hrange
  obtain ⟨hbefore, hi⟩ := List.append_inj' hrange rfl
  have hlast : i.val = before.length := (List.cons.inj hi).1
  ext j
  simp [positions, hbefore, hlast]

/-- The packets that have left are the first of the stream. -/
theorem Taken.departures_eq (h : Taken p f stream before m) :
    departures p f (before.map stream.get) =
      stream.take (departed f (stream.map (Slot.ofPacket f.codec)) m) := by
  have hslots : ∀ es : List Event, es.flatMap Event.slots =
      (es.flatMap Event.serial).flatMap Event.slots := by
    intro es
    rw [List.flatMap_assoc]
    simp only [Event.slots_serial]
  rw [departures, hslots, h.serial, left_inOrder, ← List.map_take, List.map_map]
  simp [Function.comp_def, Slot.ofPacket]

/-- Nothing waits behind the end of the stream. -/
theorem Taken.window_eq (h : Taken p f stream before stream.length) :
    (feedAll p f {} (before.map stream.get)).1 =
      (inOrder f (stream.map (Slot.ofPacket f.codec)) stream.length).1 := by
  rw [h.standing.window, List.drop_of_length_le (by rw [List.length_map])]
  simp [gather]

namespace Reordering

/-- The policy suits the stream. -/
theorem suits (h : Reordering p f stream arrivals) :
    Suits p f (stream.map (Slot.ofPacket f.codec)) := by
  refine ⟨⟨?_, ?_, ?_⟩, h.discards, ?_⟩
  · unfold Contiguous
    rw [List.map_map]
    exact h.consecutive
  · intro s hs
    rw [List.head?_map] at hs
    obtain ⟨first, hfirst, rfl⟩ := Option.map_eq_some_iff.mp hs
    exact h.opening first hfirst
  · intro s hs
    obtain ⟨q, -, rfl⟩ := List.mem_map.mp hs
    exact Slot.classified_ofPacket f.codec q
  · rw [List.map_map]
    exact h.room

/-- What arrives is near: the hypothesis, which speaks of the packets that have
left, is read off the window that has taken them in. -/
theorem near (h : Reordering p f stream arrivals) {i : Fin stream.length}
    (hpre : before ++ [i] <+: arrivals) (htaken : Taken p f stream before m) :
    Near f (stream.map (Slot.ofPacket f.codec)) (positions before) m i := by
  have hdepartures := htaken.departures_eq
  have hlen := htaken.standing.le_length
  have hle := departed_le f (stream.map (Slot.ofPacket f.codec)) m
  rw [List.length_map] at hlen
  constructor
  · intro hzero j hj
    obtain ⟨k, hk, rfl⟩ := mem_positions.mp hj
    exact h.nearOpening before i hpre (by rw [hdepartures, hzero, List.take_zero]) k hk
  · intro hpos
    refine h.nearLast before i ⟨_, ?_⟩ hpre ?_
    · omega
    · rw [hdepartures, Nat.sub_add_cancel hpos]

/-- Few packets have come that are behind one that has not. -/
theorem short (h : Reordering p f stream arrivals) {i : Fin stream.length}
    (hpre : before ++ [i] <+: arrivals) {k : Nat} (hk : k < stream.length)
    (missing : k ∉ positions (before ++ [i])) :
    ((positions (before ++ [i])).filter (k < ·)).card ≤ p.tolerance := by
  obtain ⟨after, rfl⟩ := hpre
  have hmem : (⟨k, hk⟩ : Fin stream.length) ∈ after := by
    rcases List.mem_append.mp (h.complete ⟨k, hk⟩) with hbefore | hafter
    · exact absurd (mem_positions.mpr ⟨_, hbefore, rfl⟩) missing
    · exact hafter
  obtain ⟨front, back, rfl, hfront⟩ := List.eq_append_cons_of_mem hmem
  have hnew : (⟨k, hk⟩ : Fin stream.length) ∉ before ++ [i] ++ front := by
    intro hin
    rcases List.mem_append.mp hin with hin | hin
    · exact missing (mem_positions.mpr ⟨_, hin, rfl⟩)
    · exact hfront hin
  -- when it comes, even more have come that are behind it
  refine le_trans ?_ (h.displaced (before ++ [i] ++ front) ⟨k, hk⟩ ⟨back, by simp⟩ hnew)
  rw [← Finset.card_map Fin.valEmbedding]
  apply Finset.card_le_card
  intro j hj
  obtain ⟨hcome, hlt⟩ := Finset.mem_filter.mp hj
  obtain ⟨l, hl, rfl⟩ := mem_positions.mp hcome
  refine Finset.mem_map.mpr ⟨l, Finset.mem_filter.mpr ⟨?_, hlt⟩, rfl⟩
  exact List.mem_toFinset.mpr (List.mem_append_left front hl)

/-- The first packet has come, or one that goes on with it directly. -/
theorem begun (h : Reordering p f stream arrivals) {i : Fin stream.length}
    (hpre : before ++ [i] <+: arrivals) :
    0 ∈ positions (before ++ [i]) ∨ ∃ a ∈ positions (before ++ [i]), ∀ j s, 0 < j → j ≤ a →
      (stream.map (Slot.ofPacket f.codec))[j]? = some s → s.placement.isContinuation := by
  obtain ⟨a, ha⟩ : ∃ a, (before ++ [i]).head? = some a := by
    cases before with
    | nil => exact ⟨i, rfl⟩
    | cons a before => exact ⟨a, rfl⟩
  have hmem : a.val ∈ positions (before ++ [i]) :=
    mem_positions.mpr ⟨a, List.mem_of_head? ha, rfl⟩
  have hhead : arrivals.head? = some a := by
    obtain ⟨after, rfl⟩ := hpre
    rw [List.head?_append, ha]
    rfl
  rcases h.start a hhead with hzero | ⟨-, hmiddles, hlast⟩
  · exact Or.inl (hzero ▸ hmem)
  · refine Or.inr ⟨a, hmem, ?_⟩
    intro j s hpos hle hs
    rw [List.getElem?_map] at hs
    obtain ⟨q, hq, rfl⟩ := Option.map_eq_some_iff.mp hs
    have hplacement : (stream.map (fun q => Placement.ofBody f.codec q.body))[j]? =
        some (Slot.ofPacket f.codec q).placement := by
      simp [hq, Slot.ofPacket]
    rcases Nat.eq_or_lt_of_le hle with rfl | hlt
    · rw [hplacement] at hlast
      rcases hlast with hlast | hlast <;>
        simp [Option.some.inj hlast, Placement.isContinuation]
    · have hmiddle := hmiddles j hlt hpos
      rw [hplacement] at hmiddle
      simp [Option.some.inj hmiddle, Placement.isContinuation]

/-- What has come is orderly for the policy at every arrival. -/
theorem orderly (h : Reordering p f stream arrivals) {i : Fin stream.length}
    (hpre : before ++ [i] <+: arrivals) :
    Orderly p (stream.map (Slot.ofPacket f.codec)) (positions (before ++ [i])) := by
  refine ⟨?_, h.begun hpre⟩
  intro k hk missing
  rw [List.length_map] at hk
  exact h.short hpre hk missing

/-- The arrivals are taken in, all of them. -/
theorem taken (h : Reordering p f stream arrivals) :
    Taken p f stream arrivals stream.length :=
  taken_of_complete h.complete h.suits (fun _ _ _ hpre htaken => h.near hpre htaken)
    (fun _ _ hpre => h.orderly hpre)

/-- In order, too, every packet is less than half a circle from the last that has
left. -/
theorem lt_departed (h : Reordering p f stream arrivals) (j : Fin stream.length) :
    j.val + 1 < max 1 (departed f (stream.map (Slot.ofPacket f.codec)) j) + SeqNum.half := by
  have hstanding := h.taken.standing
  have hall : ∀ i : Fin stream.length, i.val ∈ positions arrivals :=
    fun i => mem_positions.mpr ⟨i, h.complete i, rfl⟩
  rcases Nat.eq_zero_or_pos
    (departed f (stream.map (Slot.ofPacket f.codec)) stream.length) with hzero | hpos
  · have hclose := hstanding.spread hzero j (hall j) 0 (hall ⟨0, j.pos⟩)
    have := hclose.1
    omega
  · have := hstanding.reach hpos j (hall j)
    omega

/-- **A stream in order** is taken in, too. -/
theorem taken_inOrder (h : Reordering p f stream arrivals) :
    Taken p f stream (List.finRange stream.length) stream.length := by
  refine taken_of_complete List.mem_finRange h.suits ?_ ?_
  · intro before i m hpre htaken
    have hstanding := htaken.standing
    rw [positions_inOrder hpre] at hstanding ⊢
    obtain rfl : m = i := by
      refine Nat.le_antisymm (Nat.le_of_not_lt ?_) (Nat.le_of_not_lt ?_)
      · intro hlt
        exact Finset.notMem_range_self (hstanding.covered i hlt)
      · intro hlt
        exact hstanding.missing (Finset.mem_range.mpr hlt)
    have hlt := h.lt_departed i
    have hle := departed_le f (stream.map (Slot.ofPacket f.codec)) i
    constructor
    · intro hzero j hj
      have := Finset.mem_range.mp hj
      unfold Close
      omega
    · intro hpos
      unfold Close
      omega
  · intro before i hpre
    rw [positions_concat, positions_inOrder hpre, ← Finset.range_add_one]
    refine ⟨?_, Or.inl (Finset.mem_range.mpr (Nat.succ_pos i))⟩
    intro k _ missing
    have hnone : (Finset.range (i + 1)).filter (k < ·) = ∅ := by
      apply Finset.filter_eq_empty_iff.mpr
      intro j hj
      have := Finset.mem_range.mp hj
      have := mt Finset.mem_range.mpr missing
      omega
    rw [hnone, Finset.card_empty]
    exact Nat.zero_le _

variable {codec : Codec} {clockRate : UInt32} {r : Reassembler}

/-- **Reordering and duplication change nothing.**  A reassembler gives the same
units, in the same order, as if every packet came once and in order; it ends up
in the same window, and with the same counters but for the packets that came and
the copies among them, which are refused.  Nothing is lost or evicted. -/
theorem output_unchanged (created : Reassembler.create codec clockRate p = .ok r)
    (h : Reordering p (Format.ofClockRate codec clockRate) stream arrivals) :
    let ordered := r.run (stream.map .packet)
    let arrived := r.run ((arrivals.map stream.get).map .packet)
    arrived.2.filterMap Event.unit? = ordered.2.filterMap Event.unit? ∧
      arrived.1.window = ordered.1.window ∧
      arrived.1.tally.forget = { ordered.1.tally with packets := arrivals.length } ∧
      stream.length + (arrived.1.tally.stale + arrived.1.tally.duplicates) = arrivals.length ∧
      arrived.1.tally.evicted = 0 ∧ arrived.1.tally.lost = 0 := by
  obtain ⟨-, rfl⟩ := Reassembler.eq_of_create created
  have harrived := h.taken
  have hordered := h.taken_inOrder
  have hwindow := harrived.window_eq.trans hordered.window_eq.symm
  have hserial := harrived.serial.trans hordered.serial.symm
  have hcopies := harrived.refusals
  have hnocopies := hordered.refusals
  have hlossless : ∀ e ∈ (feedAll p (Format.ofClockRate codec clockRate) {}
      (arrivals.map stream.get)).2.flatMap Event.serial, e.Lossless := by
    rw [harrived.serial]
    exact h.suits.isStream.lossless (by rw [List.length_map])
  rw [card_positions h.complete] at hcopies
  rw [card_positions List.mem_finRange, List.length_finRange] at hnocopies
  rw [List.map_get_finRange] at hwindow hserial hnocopies
  rw [Reassembler.run_packets, Reassembler.run_packets]
  simp only
  generalize feedAll p (Format.ofClockRate codec clockRate) {} (arrivals.map stream.get) =
    arrived at hwindow hserial hcopies hlossless ⊢
  generalize feedAll p (Format.ofClockRate codec clockRate) {} stream =
    ordered at hwindow hserial hnocopies ⊢
  have hrefused := Tally.recordAll_refusals {} arrived.2
  have hnone := Tally.recordAll_refusals {} ordered.2
  have hforget := Tally.forget_recordAll {} arrived.2
  have hkept := Tally.recordAll_lossless hlossless (Tally.forget {})
  rw [← hforget] at hkept
  rw [hserial, ← Tally.forget_recordAll] at hforget
  -- in order no packet is refused, so there is nothing to forget
  have hordered : (Tally.recordAll {} ordered.2).forget = Tally.recordAll {} ordered.2 :=
    Tally.forget_eq_self (by simp only at hnone; omega) (by simp only at hnone; omega)
  refine ⟨?_, hwindow, ?_, ?_, hkept.1, hkept.2⟩
  · rw [← filterMap_unit?_serial, hserial, filterMap_unit?_serial]
  · rw [hordered] at hforget
    rw [← hforget, List.length_map, Nat.zero_add]
    rfl
  · simp only at hrefused ⊢
    omega

/-- An end that overtakes its start across the wrap of the numbers, and copies of
packets that wait and that have left. -/
theorem output_unchanged_overtaken :
    ∃ (policy : Policy) (r : Reassembler) (stream : List Rtp.Packet)
      (arrivals : List (Fin stream.length)),
      policy = { capacity := 2, tolerance := 1 } ∧
      Reassembler.create .h264 90000 policy = .ok r ∧
      Reordering policy (Format.ofClockRate .h264 90000) stream arrivals ∧
      arrivals.map Fin.val = [1, 1, 0, 2, 0] ∧
      (r.run ((arrivals.map stream.get).map .packet)).2.filterMap Event.unit? =
        [⟨.h264, 101, [0, 0, 0, 3, 0x65, 0xA0, 0xC0]⟩, ⟨.h264, 101, [0, 0, 0, 2, 0x65, 0xB0]⟩] := by
  let stream : List Rtp.Packet :=
    [.simple 96 false 65535 9090 1 [0x7C, 0x85, 0xA0], .simple 96 true 0 9090 1 [0x7C, 0x45, 0xC0],
      .simple 96 true 1 9090 1 [0x65, 0xB0]]
  let arrivals : List (Fin stream.length) := [1, 1, 0, 2, 0]
  have hreordering : Reordering { capacity := 2, tolerance := 1 }
      (Format.ofClockRate .h264 90000) stream arrivals := by
    decide +kernel
  have hcreate :=
    @Reassembler.create_eq_ok .h264 90000 { capacity := 2, tolerance := 1 } (by decide)
  refine ⟨_, _, stream, arrivals, rfl, hcreate, hreordering, rfl, ?_⟩
  rw [(hreordering.output_unchanged hcreate).1]
  decide +kernel

end Reordering

end RtpReassembly
