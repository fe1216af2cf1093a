import RtpReassembly.Proofs.Order

/-!
# Neighbours in the buffer

A packet that is put into the buffer is compared with the packets behind its
place and with the one before it, and with no other.  So of any buffer, whatever
it was fed, something can be said of neighbours only: the one in front compares
less than the one behind.  It says little else.  Around the whole circle the same
number may come again, and at half a circle each of two numbers compares less
than the other.

* `Stepwise.insert?`, `Trace.stepwise`: the order of neighbours;
* `SortedFrom.seqs_increasing`: on a half circle the whole buffer is in order, and
  no number is there twice;
* `Trace.buffer_increasing` puts these together, and `copy_buffered` shows what
  happens on the whole circle.
-/

namespace RtpReassembly

/-- Of two numbers one of which is after the other, the other is before it. -/
theorem SeqNum.order_eq_lt_of_gt {a b : SeqNum} (h : order a b = .gt) : order b a = .lt := by
  obtain ⟨hpos, hlt⟩ := order_eq_gt_iff.mp h
  have hself : ahead a a < ahead b a := by
    rw [ahead_self]
    exact Nat.pos_of_ne_zero fun hz => by simp [ahead_eq_zero_iff.mp hz] at hpos
  have hfar : ahead a b = 2 ^ 16 - (ahead b a - ahead a a) := ahead_of_lt hself
  have hne : b ≠ a := by
    rintro rfl
    simp at hpos
  have hnot : ¬ ahead b a < half := by
    rw [ahead_self] at hfar hself
    unfold half at hlt ⊢
    omega
  simp [order, hne, hnot]

namespace ReorderBuffer

/-- Each packet compares less than the one behind it. -/
def Stepwise (b : ReorderBuffer) : Prop :=
  b.IsChain (fun s t => SeqNum.order s.seq t.seq = .lt)

/-- **Insertion keeps neighbours in order**, wherever the packet comes from. -/
theorem Stepwise.insert? {b b' : ReorderBuffer} {s : Slot} (hb : b.Stepwise)
    (h : b.insert? s = some b') : b'.Stepwise := by
  obtain ⟨older, newer, rfl, rfl, hpassed, hstop⟩ := insert?_eq_some h
  obtain ⟨holder, hnewer, -⟩ := List.isChain_append.mp hb
  refine List.isChain_append.mpr ⟨holder, ?_, ?_⟩
  · cases newer with
    | nil => exact .singleton s
    | cons t newer => exact .cons_cons (hpassed t List.mem_cons_self) hnewer
  · intro t ht u hu
    obtain rfl := Option.some.inj hu
    exact SeqNum.order_eq_lt_of_gt (hstop t ht)

/-- On a half circle the buffer is in order, and no number is there twice. -/
theorem SortedFrom.seqs_increasing {r : SeqNum} {b : ReorderBuffer}
    (hb : b.SortedFrom r SeqNum.half) :
    b.seqs.Pairwise (fun x y => SeqNum.order y x = .gt) ∧ b.seqs.Nodup := by
  constructor
  · rw [seqs, List.pairwise_map]
    apply hb.1.imp_of_mem
    intro s t hs ht hlt
    rw [SeqNum.order_of_ahead (hb.2 t ht) (hb.2 s hs)]
    exact Nat.compare_eq_gt.mpr hlt
  · rw [seqs, List.Nodup, List.pairwise_map]
    apply hb.1.imp
    intro s t hlt heq
    rw [heq] at hlt
    exact Nat.lt_irrefl _ hlt

end ReorderBuffer

/-- Whatever moves, neighbours in the buffer stay in order. -/
theorem Window.Moves.stepwise {p : Policy} {f : Format} {w w' : Window} {es : List Event}
    (h : Moves p f w es w') (hw : w.buffer.Stepwise) : w'.buffer.Stepwise := by
  unfold ReorderBuffer.Stepwise at hw
  rw [h.buffer_eq] at hw
  exact hw.suffix (List.suffix_append _ _)

namespace Reassembler

variable {codec : Codec} {clockRate : UInt32} {policy : Policy}
variable {r : Reassembler} {fed : List Rtp.Packet} {events : List Event}

/-- **Any run** leaves neighbours in order. -/
theorem Trace.stepwise (t : Trace codec clockRate policy r fed events) :
    r.window.buffer.Stepwise := by
  induction t with
  | start created =>
      rw [(eq_of_create created).2]
      exact .nil
  | @feed r _ _ packet _ ih =>
      have hfeed : Window.Feeding r.policy r.format r.window packet
          ((r.feed packet).1.window, (r.feed packet).2) := Window.feed_feeding r.window packet
      generalize (r.feed packet).1.window = w', (r.feed packet).2 = es at hfeed
      cases hfeed with
      | stale _ _ | duplicate _ _ => exact ih
      | taken _ inserted moves => exact moves.stepwise (ih.insert? inserted)
  | clear _ _ => exact .nil

/-- **The order of the buffer.**  Whatever a reassembler was given, each number
that waits compares less than the one behind it.  If what was fed before anything
left comes from half a circle, then each compares greater than all before it, and
none waits twice. -/
theorem Trace.buffer_increasing (t : Trace codec clockRate policy r fed events) :
    r.window.buffer.seqs.IsChain (fun a b => SeqNum.order a b = .lt) ∧
    ∀ base, Window.OpensFrom policy (Format.ofClockRate codec clockRate) base fed →
      r.window.buffer.seqs.Pairwise (fun a b => SeqNum.order b a = .gt) ∧
      r.window.buffer.seqs.Nodup := by
  constructor
  · rw [ReorderBuffer.seqs, List.isChain_map]
    exact t.stepwise
  · intro base hopen
    obtain ⟨origin, horigin⟩ := exists_first_seq fed
    have hwithin := (Unwrapping.coherent_ofPackets hopen horigin).within
    rw [(Unwrapping.ofPackets_feedAll policy (Format.ofClockRate codec clockRate) fed).1,
      t.feedAll_eq] at hwithin
    exact hwithin.sorted.seqs_increasing

/-- Three middles across the wrap, the last of which overtakes the others. -/
theorem buffer_increasing_wrapped :
    ∃ fed r events,
      fed = [.simple 96 false 1 9000 1 [0x7C, 0x05, 0xA0],
        .simple 96 false 3 9000 1 [0x7C, 0x05, 0xB0],
        .simple 96 false 65534 9000 1 [0x7C, 0x05, 0xC0]] ∧
      Trace .h264 90000 {} r fed events ∧
      Window.OpensFrom {} (Format.ofClockRate .h264 90000) 65534 fed ∧
      r.window.buffer.seqs = [65534, 1, 3] ∧
      r.window.buffer.seqs.Pairwise (fun a b => SeqNum.order b a = .gt) ∧
      r.window.buffer.seqs.Nodup := by
  obtain ⟨r, t⟩ := exists_trace_feedAll .h264 {} (by decide : (1000 : UInt32) ≤ 90000)
    [.simple 96 false 1 9000 1 [0x7C, 0x05, 0xA0], .simple 96 false 3 9000 1 [0x7C, 0x05, 0xB0],
      .simple 96 false 65534 9000 1 [0x7C, 0x05, 0xC0]]
  have hopen : Window.OpensFrom {} (Format.ofClockRate .h264 90000) 65534
      [.simple 96 false 1 9000 1 [0x7C, 0x05, 0xA0],
        .simple 96 false 3 9000 1 [0x7C, 0x05, 0xB0],
        .simple 96 false 65534 9000 1 [0x7C, 0x05, 0xC0]] := by
    intro before packet after heq _
    have hmem : packet ∈ before ++ packet :: after := by simp
    rw [← heq] at hmem
    simp only [List.mem_cons, List.not_mem_nil, or_false] at hmem
    rcases hmem with rfl | rfl | rfl <;> decide
  have hwindow : r.window = _ := (congrArg Prod.fst t.feedAll_eq).symm
  refine ⟨_, r, _, rfl, t, hopen, ?_, t.buffer_increasing.2 65534 hopen⟩
  rw [hwindow]
  decide +kernel

/-- **Around the circle a number may wait twice.**  Of four middles a third of a
circle apart the fourth has the number of the first; but it compares greater than
the third, so it is put behind it and is not found to be a copy.  Two middles half
a circle apart each compare less than the other. -/
theorem copy_buffered :
    ∃ r₀, create .h264 90000 {} = .ok r₀ ∧
      (r₀.run [.packet (.simple 96 false 0 9000 1 [0x7C, 0x05, 0xB0]),
        .packet (.simple 96 false 20000 9000 1 [0x7C, 0x05, 0xB0]),
        .packet (.simple 96 false 40000 9000 1 [0x7C, 0x05, 0xB0]),
        .packet (.simple 96 false 0 9000 1 [0x7C, 0x05, 0xB0])]).1.window.buffer.seqs =
          [0, 20000, 40000, 0] ∧
      ¬ [0, 20000, 40000, (0 : SeqNum)].Nodup ∧
      (r₀.run [.packet (.simple 96 false 0 9000 1 [0x7C, 0x05, 0xB0]),
        .packet (.simple 96 false 32768 9000 1 [0x7C, 0x05, 0xB0])]).1.window.buffer.seqs =
          [32768, 0] ∧
      SeqNum.order 0 32768 = .lt :=
  ⟨_, create_eq_ok (by decide), by decide +kernel, by decide +kernel, by decide +kernel,
    by decide +kernel⟩

end Reassembler

end RtpReassembly
