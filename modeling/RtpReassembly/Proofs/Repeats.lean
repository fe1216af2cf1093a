import RtpReassembly.Proofs.Counts

/-!
# Packets that come again

A packet is refused in two ways: its number is not after the last that left, or
the scan of the buffer from the tail meets its number.  Neither way is sure by
itself, since the scan stops at the first packet that the new one comes after,
and buffered numbers may span more than half the circle.  Both ways together
refuse whatever was fed before:

* `Met x w`: a packet with the number `x` waits, and the scan for `x` reaches it;
  or it is gone, the scan would pass all that wait, and the last number that left
  is not before `x`;
* `Move.met`, `Feeding.met`: feeding a packet has its number met, and moves keep
  it so;
* `feed_again` is the main statement.
-/

namespace RtpReassembly

/-- What comes before a number does not come after the one in front of it. -/
theorem SeqNum.order_pred {a b : SeqNum} (h : order a b = .lt) : order a (b - 1) ≠ .gt := by
  have hne : a ≠ b := by
    rintro rfl
    simp [order] at h
  have hfar : ¬ ahead a b < half := fun hlt => by simp [order, hne, hlt] at h
  have ha := a.toNat_lt
  have hb := b.toNat_lt
  rw [ne_eq, order_eq_gt_iff]
  simp only [ahead_eq_mod, half, UInt16.toNat_sub, UInt16.reduceToNat] at hfar ⊢
  omega

namespace ReorderBuffer

/-- A packet that comes before all that stand behind its twin is found out there.
-/
theorem insertFromTail?_twin {s twin : Slot} {newer older : List Slot} (same : twin.seq = s.seq)
    (passed : ∀ t ∈ newer, SeqNum.order s.seq t.seq = .lt) :
    insertFromTail? s (newer ++ twin :: older) = none := by
  induction newer with
  | nil => simp [insertFromTail?, same, SeqNum.order]
  | cons t newer ih =>
      obtain ⟨ht, hnewer⟩ := List.forall_mem_cons.mp passed
      simp [insertFromTail?, ht, ih hnewer]

/-- A packet is refused whose number is met behind none that it comes after. -/
theorem insert?_twin {s twin : Slot} {older newer : List Slot} (same : twin.seq = s.seq)
    (passed : ∀ t ∈ newer, SeqNum.order s.seq t.seq = .lt) :
    insert? (older ++ twin :: newer) s = none := by
  have hscan : insertFromTail? s (newer.reverse ++ twin :: older.reverse) = none :=
    insertFromTail?_twin same (by simpa using passed)
  simpa [insert?] using hscan

end ReorderBuffer

namespace Window

/-- A packet with the number `x` would be refused, and why. -/
inductive Met (x : SeqNum) : Window → Prop
  /-- One waits, and comes before all behind it. -/
  | waits {older newer : List Slot} {twin : Slot} {consumed : Option SeqNum}
      (number : twin.seq = x) (passed : ∀ t ∈ newer, SeqNum.order x t.seq = .lt) :
      Met x ⟨older ++ twin :: newer, consumed⟩
  /-- It is gone, and comes before all that wait. -/
  | gone {buffer : List Slot} {c : SeqNum} (passed : ∀ t ∈ buffer, SeqNum.order x t.seq = .lt)
      (late : SeqNum.order x c ≠ .gt) : Met x ⟨buffer, some c⟩

variable {p : Policy} {f : Format} {x : SeqNum}

/-- The last number that left may go up to the number before the head. -/
theorem Met.skip {head : Slot} {tail : List Slot} {consumed : Option SeqNum}
    (h : Met x ⟨head :: tail, consumed⟩) : Met x ⟨head :: tail, some (head.seq - 1)⟩ := by
  generalize hw : Window.mk (head :: tail) consumed = w at h
  cases h with
  | waits number passed =>
      obtain ⟨hbuffer, -⟩ := Window.mk.inj hw
      rw [hbuffer]
      exact .waits number passed
  | gone passed _ =>
      obtain ⟨rfl, -⟩ := Window.mk.inj hw
      exact .gone passed (SeqNum.order_pred (passed head List.mem_cons_self))

/-- A row may leave from the head. -/
theorem Met.leave {head : Slot} {others behind : List Slot} {consumed : Option SeqNum}
    (h : Met x ⟨head :: (others ++ behind), consumed⟩) :
    Met x ⟨behind, some (lastSeq head others)⟩ := by
  rw [← List.cons_append] at h
  generalize hw : Window.mk (head :: others ++ behind) consumed = w at h
  cases h with
  | @waits older newer twin _ number passed =>
      obtain ⟨hbuffer, -⟩ := Window.mk.inj hw
      rcases List.append_eq_append_iff.mp hbuffer with ⟨between, -, rfl⟩ | ⟨row, hrow, hrest⟩
      · exact .waits number passed
      · cases row with
        | nil =>
            rw [List.nil_append] at hrest
            rw [← hrest]
            exact @Met.waits x [] newer twin _ number passed
        | cons t row =>
            -- the packet leaves with the row, and the row ends with it or behind it
            obtain ⟨rfl, rfl⟩ := List.cons.inj hrest
            have hlast : lastSeq head others = lastSeq twin row := by
              have hseqs := getLast?_seqs head others
              rw [hrow, List.map_append, List.getLast?_append, getLast?_seqs] at hseqs
              exact (Option.some.inj hseqs).symm
            refine .gone (fun u hu => passed u (List.mem_append_right _ hu)) ?_
            rw [hlast]
            obtain ⟨last, hmem, hseq⟩ := List.mem_map.mp (lastSeq_mem twin row)
            rw [← hseq]
            rcases List.mem_cons.mp hmem with rfl | hmem
            · simp [number, SeqNum.order]
            · simp [passed last (List.mem_append_left _ hmem)]
  | gone passed _ =>
      obtain ⟨rfl, -⟩ := Window.mk.inj hw
      obtain ⟨last, hmem, hseq⟩ := List.mem_map.mp (lastSeq_mem head others)
      refine .gone (fun t ht => passed t (List.mem_append_right _ ht)) ?_
      rw [← hseq]
      simp [passed last (List.mem_append_left _ hmem)]

/-- **One move** forgets no number. -/
theorem Move.met {w w' : Window} {e : Event} (h : Move p f w e w') (hw : Met x w) :
    Met x w' := by
  cases h with
  | giveUp _ _ => exact hw.skip
  | wait _ _ => exact hw
  | emit _ _ | discard _ _ _ _ _ | abandonBroken _ _ _ _ => exact hw.leave
  | abandonGap _ _ _ _ => exact hw.leave.skip
  | @drop _ head tail _ _ _ => exact @Met.leave x head [] tail _ hw
  | @evict _ head tail _ => exact @Met.leave x head [] tail _ hw

/-- A number that was met stays so in every move: its packet waits on or is gone.
-/
theorem Moves.met {w w' : Window} {es : List Event} (h : Moves p f w es w') (hw : Met x w) :
    Met x w' := by
  induction h with
  | nil _ => exact hw
  | cons move _ ih => exact ih (move.met hw)

/-- What a window makes of a packet that it refuses. -/
inductive Refused (w : Window) (packet : Rtp.Packet) : Window × List Event → Prop
  | stale (c : SeqNum) : Refused w packet (w, [.stale packet.seq c])
  | duplicate : Refused w packet (w, [.classified packet, .duplicate packet.seq])

/-- A packet whose number was met is refused. -/
theorem Met.refused {w : Window} {packet : Rtp.Packet} (h : Met packet.seq w) :
    Refused w packet (feed p f w packet) := by
  have hfeed := feed_feeding (p := p) (f := f) w packet
  generalize feed p f w packet = result at hfeed
  cases hfeed with
  | stale _ _ => exact .stale _
  | duplicate _ _ => exact .duplicate
  | taken fresh inserted _ =>
      cases h with
      | @waits older newer twin _ number passed =>
          have hnone : ReorderBuffer.insert? (older ++ twin :: newer)
              (Slot.ofPacket f.codec packet) = none :=
            ReorderBuffer.insert?_twin number passed
          simp [hnone] at inserted
      | gone _ late => exact absurd (fresh _ rfl) late

/-- A packet that was fed is met, or is stale for good reason. -/
theorem Feeding.refused_again {w w' : Window} {first packet : Rtp.Packet} {es : List Event}
    (h : Feeding p f w first (w', es)) (same : packet.seq = first.seq) :
    Refused w' packet (feed p f w' packet) := by
  cases h with
  | @stale c last late =>
      have hstale : w.staleAfter? packet.seq = some c := by
        simpa [staleAfter?, last, same] using late
      rw [feed, hstale]
      exact .stale c
  | duplicate fresh refused =>
      obtain ⟨older, twin, newer, hbuffer, number, passed⟩ := ReorderBuffer.insert?_eq_none refused
      have hmet : Met packet.seq ⟨older ++ twin :: newer, w.consumed⟩ :=
        .waits (number.trans same.symm) (same ▸ passed)
      rw [← hbuffer] at hmet
      exact hmet.refused
  | taken fresh inserted moves =>
      obtain ⟨older, newer, -, rfl, passed, -⟩ := ReorderBuffer.insert?_eq_some inserted
      have hmet : Met packet.seq ⟨older ++ Slot.ofPacket f.codec first :: newer, w.consumed⟩ :=
        .waits same.symm (same ▸ passed)
      exact (moves.met hmet).refused

end Window

namespace Reassembler

/-- **A number counts once.**  In any state whatever, once a packet was fed any
packet with its number, the same or another, changes nothing but counters: no
unit comes of it, those that wait and the last number that left stay, and it is
counted as fed and either as stale or as a duplicate. -/
theorem feed_again (r : Reassembler) {first packet : Rtp.Packet}
    (same : packet.seq = first.seq) :
    let once := (r.feed first).1
    let twice := once.feed packet
    twice.2.filterMap Event.unit? = [] ∧
    (twice.1 = { once with tally := { once.tally with
        packets := once.tally.packets + 1, stale := once.tally.stale + 1 } } ∨
      twice.1 = { once with tally := { once.tally with
        packets := once.tally.packets + 1, duplicates := once.tally.duplicates + 1 } }) := by
  have hfeed : Window.Feeding r.policy r.format r.window first
      ((r.feed first).1.window, (r.feed first).2) := Window.feed_feeding r.window first
  have hagain := hfeed.refused_again same
  intro once twice
  have htwice : twice = ({ once with
      window := (once.window.feed r.policy r.format packet).1
      tally := once.tally.recordFeed (once.window.feed r.policy r.format packet).2 },
      (once.window.feed r.policy r.format packet).2) := rfl
  rw [htwice]
  generalize once.window.feed r.policy r.format packet = result at hagain
  cases hagain with
  | stale c => exact ⟨rfl, Or.inl rfl⟩
  | duplicate => exact ⟨rfl, Or.inr rfl⟩

/-- Three middles a third of a circle apart wait.  A fourth has the number of the
first and is not known for a copy, so it is taken in; but a fifth with that number
is refused. -/
theorem feed_again_around :
    ∃ r₀ r first packet, create .h264 90000 {} = .ok r₀ ∧
      r = (r₀.run [.packet (.simple 96 false 0 9000 1 [0x7C, 0x05, 0xA0]),
        .packet (.simple 96 false 20000 9000 1 [0x7C, 0x05, 0xA1]),
        .packet (.simple 96 false 40000 9000 1 [0x7C, 0x05, 0xA2])]).1 ∧
      first = .simple 96 false 0 9000 1 [0x7C, 0x05, 0xB0] ∧
      packet = .simple 96 false 0 9000 1 [0x7C, 0x05, 0xC0] ∧
      packet.seq = first.seq ∧
      (r.feed first).1.window.buffer.seqs = [0, 20000, 40000, 0] ∧
      ((r.feed first).1.feed packet).1.window = (r.feed first).1.window ∧
      ((r.feed first).1.feed packet).1.tally = ⟨5, 0, 0, 1, 0, 0, 0, 0⟩ ∧
      ((r.feed first).1.feed packet).2.filterMap Event.unit? = [] := by
  refine ⟨_, _, _, _, create_eq_ok (by decide), rfl, rfl, rfl, rfl, by decide +kernel,
    by decide +kernel, by decide +kernel, (feed_again _ ?_).1⟩
  rfl

end Reassembler

end RtpReassembly
