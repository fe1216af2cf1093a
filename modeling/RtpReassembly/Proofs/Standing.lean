import RtpReassembly.Proofs.Gathering
import RtpReassembly.Proofs.Counts
import RtpReassembly.Proofs.Intake
import Mathlib.Data.Finset.Max
import Mathlib.Data.Fintype.EquivFin

/-!
# A stream that comes out of order

After some positions of a stream have come, in whatever order, the window is
that of the positions before the first that is missing, taken in order, with the
others behind them.  This is `Window.Standing`, and one more arrival keeps it.

* `IsStream.ready`: a stream can be taken in order;
* `Standing.settle_insert`: settling takes in order whatever has come to the
  first hole;
* `Standing.feed_copy`, `Standing.feed_new`: one more arrival.
-/

namespace RtpReassembly

/-- The length of the longest row of a start and middles that go on with it. -/
def longestOpenRun : List Placement → Nat
  | [] => 0
  | placement :: rest =>
    max (if placement = .fragmentStart then 1 + (rest.takeWhile (· = .fragmentMiddle)).length
      else 0)
      (longestOpenRun rest)

/-- Each start with the middles behind it is no longer than the longest open run.
-/
theorem le_longestOpenRun (before behind middles : List Placement)
    (h : ∀ q ∈ middles, q = .fragmentMiddle) :
    middles.length + 1 ≤ longestOpenRun (before ++ .fragmentStart :: (middles ++ behind)) := by
  induction before with
  | nil =>
      have htake : middles.length ≤
          ((middles ++ behind).takeWhile (· = .fragmentMiddle)).length := by
        rw [List.takeWhile_append_of_pos (by simpa using h), List.length_append]
        omega
      simp only [List.nil_append, longestOpenRun, if_true]
      omega
  | cons q before ih =>
      rw [List.cons_append, longestOpenRun]
      omega

/-- Two positions of a stream are less than half a circle apart. -/
def Close (i j : Nat) : Prop :=
  i < j + SeqNum.half ∧ j < i + SeqNum.half

instance (i j : Nat) : Decidable (Close i j) := by
  unfold Close; infer_instance

/-- A stream whose packets are numbered one after the other, and that does not
open in the middle of a unit. -/
structure IsStream (f : Format) (slots : List Slot) : Prop where
  contiguous : Contiguous slots
  opening : ∀ s ∈ slots.head?, ¬ s.placement.isContinuation
  classified : ∀ s ∈ slots, s.Classified f.codec

namespace Window

section InOrder

variable (f : Format) (slots : List Slot)

/-- What the first `m` packets of a stream come to, one after the other. -/
def inOrder (m : Nat) : Window × List Event :=
  absorbAll f {} (slots.take m)

/-- How many of the first `m` packets have left then. -/
def departed (m : Nat) : Nat :=
  ((inOrder f slots m).2.flatMap Event.slots).length

/-- Of the first `m` packets in order, none is lost or changes place. -/
theorem inOrder_slots (m : Nat) :
    (inOrder f slots m).2.flatMap Event.slots ++ (inOrder f slots m).1.buffer = slots.take m :=
  absorbAll_slots {} (slots.take m)

/-- No more have left than have come. -/
theorem departed_le (m : Nat) : departed f slots m ≤ m := by
  have h := congrArg List.length (inOrder_slots f slots m)
  rw [List.length_append, List.length_take] at h
  unfold departed
  omega

/-- The packets that have left are the first of the stream. -/
theorem left_inOrder (m : Nat) :
    (inOrder f slots m).2.flatMap Event.slots = slots.take (departed f slots m) := by
  have h := congrArg (List.take (departed f slots m)) (inOrder_slots f slots m)
  rw [List.take_take, Nat.min_eq_left (departed_le f slots m)] at h
  rw [← h]
  exact List.take_left.symm

/-- What waits of the first `m` is what has not left. -/
theorem buffer_inOrder (m : Nat) :
    (inOrder f slots m).1.buffer = (slots.take m).drop (departed f slots m) := by
  rw [← inOrder_slots f slots m]
  exact List.drop_left.symm

/-- The last number is that of the last packet to have left. -/
theorem consumed_inOrder (m : Nat) :
    (inOrder f slots m).1.consumed =
      ((slots.take (departed f slots m)).map Slot.seq).getLast? := by
  rw [← left_inOrder]
  have h := absorbAll_consumed (f := f) {} (slots.take m)
  rw [Option.or_none] at h
  exact h

/-- Going on with a stream in order. -/
theorem inOrder_add (m k : Nat) :
    inOrder f slots (m + k) =
      ((absorbAll f (inOrder f slots m).1 ((slots.drop m).take k)).1,
        (inOrder f slots m).2 ++
          (absorbAll f (inOrder f slots m).1 ((slots.drop m).take k)).2) := by
  rw [inOrder, List.take_add, absorbAll_append]
  rfl

/-- Whatever has left of a stream has left of a longer beginning of it. -/
theorem departed_mono {m m' : Nat} (h : m ≤ m') : departed f slots m ≤ departed f slots m' := by
  obtain ⟨k, rfl⟩ := Nat.exists_eq_add_of_le h
  unfold departed
  rw [inOrder_add, List.flatMap_append, List.length_append]
  omega

end InOrder

end Window

namespace IsStream

open Window

variable {f : Format} {slots : List Slot}

/-- The first packets of a stream can be absorbed, whatever came too early. -/
theorem ready (h : IsStream f slots) {m : Nat} {later : List Slot}
    (hpos : 0 < m) (hle : m ≤ slots.length)
    (hole : ∀ t ∈ later.head?, ∃ j, slots[j]? = some t ∧ m < j ∧ j < m + SeqNum.half) :
    Ready f {} (slots.take m) later := by
  have hrow : row {} (slots.take m) = (slots.map Slot.seq).take m := by
    simp [row, List.map_take]
  refine ⟨isOpen_nil, ?_, ?_, ?_, fun s hs => h.classified s (List.mem_of_mem_take hs)⟩
  · rw [hrow]
    exact h.contiguous.take m
  · intro _
    cases slots with
    | nil => simp at hle; omega
    | cons s rest =>
        obtain ⟨m, rfl⟩ := Nat.exists_eq_succ_of_ne_zero (Nat.ne_of_gt hpos)
        exact ⟨s, rfl, h.opening s rfl⟩
  · intro c hc t ht hfollows
    obtain ⟨j, hget, hlt, hnear⟩ := hole t ht
    obtain ⟨last, hlast⟩ : ∃ last, slots[m - 1]? = some last :=
      ⟨slots[m - 1], List.getElem?_eq_getElem (by omega)⟩
    have hc' : last.seq = c := by
      rw [hrow, List.getLast?_take, if_neg (by omega)] at hc
      simpa [hlast] using hc
    have hahead := ahead_of_positions h.contiguous hlast hget (by omega)
      (by unfold SeqNum.half at hnear; omega)
    rw [hc', SeqNum.follows_iff.mp hfollows] at hahead
    omega

/-- The window of the first `m` is ready for the next `k`, as long as what comes
later leaves a hole behind them and is less than half a circle away. -/
theorem ready_inOrder (h : IsStream f slots) {m k : Nat}
    {later : List Slot} (hpos : 0 < m + k) (hle : m + k ≤ slots.length)
    (hole : ∀ t ∈ later.head?, ∃ j, slots[j]? = some t ∧ m + k < j ∧ j < m + k + SeqNum.half) :
    Ready f (inOrder f slots m).1 ((slots.drop m).take k) later := by
  have hready := h.ready hpos hle hole
  rw [List.take_add] at hready
  exact hready.absorbAll

/-- Nothing is lost of a stream in order. -/
theorem lossless (h : IsStream f slots) {m : Nat} (hle : m ≤ slots.length) :
    ∀ e ∈ (inOrder f slots m).2, e.Lossless := by
  rcases Nat.eq_zero_or_pos m with rfl | hpos
  · simp [inOrder, absorbAll]
  · exact (@IsStream.ready f slots h m [] hpos hle (by simp)).absorbAll_lossless

/-- What waits of a stream in order is an open run of it. -/
theorem buffer_le (h : IsStream f slots) {m : Nat}
    (hle : m ≤ slots.length) :
    (inOrder f slots m).1.buffer.length ≤ longestOpenRun (slots.map Slot.placement) := by
  rcases Nat.eq_zero_or_pos m with rfl | hpos
  · simp [inOrder, absorbAll]
  · have hready : Ready f (inOrder f slots m).1 [] [] :=
      h.ready_inOrder (k := 0) hpos hle (by simp)
    cases hb : (inOrder f slots m).1.buffer with
    | nil => exact Nat.zero_le _
    | cons start middles =>
        have run := hready.isOpen start middles hb
        have hslots : slots = (inOrder f slots m).2.flatMap Event.slots ++
            start :: (middles ++ slots.drop m) := by
          conv_lhs => rw [← List.take_append_drop m slots, ← inOrder_slots f slots m, hb]
          simp
        have hmiddles : ∀ q ∈ middles.map Slot.placement, q = .fragmentMiddle := by
          intro q hq
          obtain ⟨s, hs, rfl⟩ := List.mem_map.mp hq
          exact run.middles s hs
        have hbound := le_longestOpenRun
          (((inOrder f slots m).2.flatMap Event.slots).map Slot.placement)
          ((slots.drop m).map Slot.placement) _ hmiddles
        rw [hslots]
        simpa [run.start] using hbound

end IsStream

/-- The packets that have arrived, as far as they have not left, without a hole
and behind the first hole. -/
theorem gather_from {slots : List Slot} {A : Finset Nat} {k m : Nat} (hkm : k ≤ m)
    (hm : m ≤ slots.length) (covered : ∀ j < m, j ∈ A) :
    gather (fun j => k ≤ j && decide (j ∈ A)) 0 slots =
      (slots.take m).drop k ++ gather (fun j => decide (j ∈ A)) m (slots.drop m) := by
  have hsplit : slots = slots.take k ++ ((slots.take m).drop k ++ slots.drop m) := by
    have htake : slots.take k = (slots.take m).take k := by
      rw [List.take_take, Nat.min_eq_left hkm]
    rw [htake, ← List.append_assoc, List.take_append_drop, List.take_append_drop]
  have hlen : (slots.take k).length = k := List.length_take_of_le (hkm.trans hm)
  have hlen' : ((slots.take m).drop k).length = m - k := by
    rw [List.length_drop, List.length_take_of_le hm]
  conv_lhs => rw [hsplit, gather_append, gather_append, hlen, hlen', Nat.zero_add]
  have hleft : gather (fun j => k ≤ j && decide (j ∈ A)) 0 (slots.take k) = [] := by
    apply gather_eq_nil
    intro j hj
    rw [hlen] at hj
    simp only [Nat.zero_add, Bool.and_eq_false_imp, decide_eq_true_eq]
    omega
  have hrun : gather (fun j => k ≤ j && decide (j ∈ A)) k ((slots.take m).drop k) =
      (slots.take m).drop k := by
    apply gather_eq_self
    intro j hj
    rw [hlen'] at hj
    simpa using covered (k + j) (by omega)
  rw [hleft, hrun, List.nil_append, Nat.add_sub_cancel' hkm]
  congr 1
  apply gather_congr
  intro j _
  have hle : k ≤ m + j := by omega
  simp [hle]

namespace Window

section Standing

variable (p : Policy) (f : Format) (slots : List Slot)

/-- A window to which the positions `A` of a stream have come, in some order;
`m` is the first that is missing. -/
structure Standing (A : Finset Nat) (m : Nat) (w : Window) : Prop where
  covered : ∀ j < m, j ∈ A
  missing : m ∉ A
  bounded : ∀ j ∈ A, j < slots.length
  window : w = ⟨(inOrder f slots m).1.buffer ++
      gather (fun j => decide (j ∈ A)) m (slots.drop m), (inOrder f slots m).1.consumed⟩
  spread : departed f slots m = 0 → ∀ i ∈ A, ∀ j ∈ A, Close i j
  reach : 0 < departed f slots m → ∀ j ∈ A,
    j + 1 < max 1 (min (departed f slots j) (departed f slots m)) + SeqNum.half

/-- A position is close to the last that has left, or, while none has, to all
that have come. -/
structure Near (A : Finset Nat) (m i : Nat) : Prop where
  opening : departed f slots m = 0 → ∀ j ∈ A, Close i j
  last : 0 < departed f slots m → Close i (departed f slots m - 1)

variable {p f slots}
variable {A : Finset Nat} {m i : Nat} {w : Window} {s : Slot}

/-- A stream of which nothing has come. -/
theorem standing_empty : Standing f slots ∅ 0 {} := by
  refine ⟨by simp, by simp, by simp, ?_, by simp, by simp⟩
  have hnone : gather (fun j => decide (j ∈ (∅ : Finset Nat))) 0 (slots.drop 0) = [] :=
    gather_eq_nil (by simp)
  rw [hnone]
  rfl

/-- The first position that is missing is at most one past the stream. -/
theorem Standing.le_length (h : Standing f slots A m w) : m ≤ slots.length := by
  by_contra hlt
  have := h.bounded _ (h.covered slots.length (by omega))
  omega

/-- The buffer has, in their order, the packets that have come and not left. -/
theorem Standing.buffer_eq (h : Standing f slots A m w) :
    w.buffer = gather (fun j => departed f slots m ≤ j && decide (j ∈ A)) 0 slots := by
  rw [gather_from (departed_le f slots m) h.le_length h.covered, h.window, buffer_inOrder]

/-- The last number that has left is that of the last position that has. -/
theorem Standing.consumed_eq (h : Standing f slots A m w) :
    w.consumed = if departed f slots m = 0 then none
      else slots[departed f slots m - 1]?.map Slot.seq := by
  have hle : departed f slots m ≤ slots.length := (departed_le f slots m).trans h.le_length
  rw [h.window, consumed_inOrder, List.getLast?_map, List.getLast?_take]
  split
  · rfl
  · rw [List.getElem?_eq_getElem (by omega)]
    rfl

/-- Before anything has left, all positions are close to each other. -/
theorem Standing.spread_insert (h : Standing f slots A m w) (near : Near f slots A m i)
    (hk : departed f slots m = 0) : ∀ a ∈ insert i A, ∀ b ∈ insert i A, Close a b := by
  have hi := near.opening hk
  intro a ha b hb
  rcases Finset.mem_insert.mp ha with rfl | hA
  · rcases Finset.mem_insert.mp hb with rfl | hB
    · simp [Close, SeqNum.half]
    · exact hi b hB
  · rcases Finset.mem_insert.mp hb with rfl | hB
    · exact ⟨(hi a hA).2, (hi a hA).1⟩
    · exact h.spread hk a hA b hB

/-- Whatever waits or arrives lies on the half circle in front of a position. -/
theorem Standing.exists_reference (h : Standing f slots A m w) (near : Near f slots A m i)
    (hi : i < slots.length) :
    ∃ ρ < slots.length, ∀ j ∈ insert i A, departed f slots m ≤ j →
      ρ ≤ j ∧ j < ρ + SeqNum.half := by
  rcases Nat.eq_zero_or_pos (departed f slots m) with hk | hk
  · obtain ⟨ρ, hρ, hmin⟩ :=
      Finset.exists_min_image (insert i A) id ⟨i, Finset.mem_insert_self i A⟩
    refine ⟨ρ, ?_, ?_⟩
    · rcases Finset.mem_insert.mp hρ with rfl | hρ
      · exact hi
      · exact h.bounded ρ hρ
    · intro j hj _
      exact ⟨hmin j hj, (h.spread_insert near hk j hj ρ hρ).1⟩
  · have hle := departed_le f slots m
    have hlen := h.le_length
    refine ⟨departed f slots m - 1, by omega, ?_⟩
    intro j hj hkj
    refine ⟨by omega, ?_⟩
    rcases Finset.mem_insert.mp hj with rfl | hj
    · exact (near.last hk).1
    · have := h.reach hk j hj
      omega

/-- A packet that has left is stale. -/
theorem Standing.staleAfter?_eq_some (h : Standing f slots A m w) (hst : IsStream f slots)
    (near : Near f slots A m i) (hs : slots[i]? = some s) (hi : i < departed f slots m) :
    ∃ c, w.staleAfter? s.seq = some c := by
  have hle := departed_le f slots m
  have hlen := h.le_length
  obtain ⟨last, hlast⟩ : ∃ last, slots[departed f slots m - 1]? = some last :=
    ⟨slots[departed f slots m - 1], List.getElem?_eq_getElem (by omega)⟩
  have hclose := (near.last (by omega)).2
  unfold SeqNum.half at hclose
  have hahead := ahead_of_positions hst.contiguous hs hlast (by omega) (by omega)
  refine ⟨last.seq, Option.filter_eq_some_iff.mpr ⟨?_, ?_⟩⟩
  · rw [h.consumed_eq, if_neg (by omega), hlast]
    rfl
  · have hnot : SeqNum.order s.seq last.seq ≠ .gt := by
      rw [Ne, SeqNum.order_eq_gt_iff]
      intro hgt
      have hback : SeqNum.ahead s.seq last.seq = 2 ^ 16 - SeqNum.ahead last.seq s.seq := by
        have hne : SeqNum.ahead s.seq s.seq < SeqNum.ahead last.seq s.seq := by
          rw [SeqNum.ahead_self]
          apply Nat.pos_of_ne_zero
          intro hzero
          rw [SeqNum.ahead_eq_zero_iff.mp hzero, SeqNum.ahead_self] at hgt
          omega
        rw [SeqNum.ahead_of_lt hne, SeqNum.ahead_self, Nat.sub_zero]
      rw [hback, hahead] at hgt
      unfold SeqNum.half at hgt
      omega
    simpa using hnot

/-- A packet that has not left is not stale. -/
theorem Standing.staleAfter?_eq_none (h : Standing f slots A m w) (hst : IsStream f slots)
    (near : Near f slots A m i) (hs : slots[i]? = some s) (hi : departed f slots m ≤ i) :
    w.staleAfter? s.seq = none := by
  have hle := departed_le f slots m
  have hlen := h.le_length
  apply Option.filter_eq_none_iff.mpr
  intro c hc
  rw [h.consumed_eq] at hc
  split at hc
  · simp at hc
  · obtain ⟨last, hlast, rfl⟩ := Option.map_eq_some_iff.mp hc
    have hclose := (near.last (by omega)).1
    have hahead := ahead_of_positions hst.contiguous hlast hs (by omega)
      (by unfold SeqNum.half at hclose; omega)
    have hgt : SeqNum.order s.seq last.seq = .gt :=
      SeqNum.order_eq_gt_iff.mpr (by rw [hahead]; omega)
    simp [hgt]

/-- Insertion adds a position that has not left, unless it has come. -/
theorem Standing.insert?_eq (h : Standing f slots A m w) (hst : IsStream f slots)
    (near : Near f slots A m i) (hs : slots[i]? = some s) (hi : departed f slots m ≤ i) :
    w.buffer.insert? s =
      if i ∈ A then none
      else some (gather (fun j => departed f slots m ≤ j && decide (j ∈ insert i A)) 0 slots) := by
  have hlen : i < slots.length := (List.getElem?_eq_some_iff.mp hs).1
  obtain ⟨ρ, hρ, href⟩ := h.exists_reference near hlen
  have hnear : ∀ j, (departed f slots m ≤ j && decide (j ∈ A)) = true →
      ρ ≤ j ∧ j < ρ + SeqNum.half := by
    intro j hj
    simp only [Bool.and_eq_true, decide_eq_true_eq] at hj
    exact href j (Finset.mem_insert_of_mem hj.2) hj.1
  obtain ⟨hle, hlt⟩ := href i (Finset.mem_insert_self i A) hi
  rw [h.buffer_eq, insert?_gather hst.contiguous (List.getElem?_eq_getElem hρ) hnear hs hle hlt]
  by_cases hA : i ∈ A
  · rw [if_pos (by simpa using ⟨hi, hA⟩), if_pos hA]
  · rw [if_neg (by simp [hA]), if_neg hA]
    congr 1
    apply gather_congr
    intro j _
    rw [Nat.zero_add]
    by_cases hj : j = i
    · simp [hj, hi]
    · simp [hj]

/-- **A copy** is refused and changes nothing. -/
theorem Standing.feed_copy {packet : Rtp.Packet} (h : Standing f slots A m w)
    (hst : IsStream f slots) (near : Near f slots A m i)
    (hs : slots[i]? = some (Slot.ofPacket f.codec packet)) (hA : i ∈ A) :
    (w.feed p f packet).1 = w ∧ (w.feed p f packet).2.flatMap Event.serial = [] ∧
      (w.feed p f packet).2.countP Event.isRefusal = 1 := by
  unfold feed
  by_cases hi : i < departed f slots m
  · obtain ⟨c, hc⟩ := h.staleAfter?_eq_some hst near hs hi
    rw [show w.staleAfter? packet.seq = some c from hc]
    simp [Event.serial, Event.isRefusal]
  · have hfresh := h.staleAfter?_eq_none hst near hs (Nat.le_of_not_lt hi)
    have hins := h.insert?_eq hst near hs (Nat.le_of_not_lt hi)
    rw [if_pos hA] at hins
    rw [show w.staleAfter? packet.seq = none from hfresh]
    simp [hins, Event.serial, Event.isRefusal]

/-- A continuation at the head waits for its start, as long as nothing has left
and few packets wait. -/
theorem settle_waits {head : Slot} {tail : List Slot} (orphan : head.placement.isContinuation)
    (short : tail.length + 1 ≤ p.tolerance) :
    settle p f ⟨head :: tail, none⟩ = (⟨head :: tail, none⟩, [.orphanWaits head]) := by
  have hlost : p.isLost (tail.length + 1) = false := by
    simpa [Policy.isLost] using short
  apply settle_of_settled
  rw [turn_of_isNext (by simp [IsNext]), serve, if_neg (by simp [hlost])]
  cases hp : head.placement <;> simp_all [Placement.isContinuation, assemble]

/-- A set of positions that have come, as far as the policy copes with it: few
wait behind a hole, and what opens the stream is its first packet or goes on
with it. -/
structure Orderly (p : Policy) (slots : List Slot) (A : Finset Nat) : Prop where
  short : ∀ m < slots.length, m ∉ A → (A.filter (m < ·)).card ≤ p.tolerance
  begun : 0 ∈ A ∨ ∃ a ∈ A, ∀ j s, 0 < j → j ≤ a → slots[j]? = some s → s.placement.isContinuation

/-- Some position is the first that a finite set misses. -/
theorem exists_first_missing (A : Finset Nat) : ∃ m, (∀ j < m, j ∈ A) ∧ m ∉ A := by
  classical
  have hex : ∃ m, m ∉ A := Infinite.exists_notMem_finset A
  refine ⟨Nat.find hex, ?_, Nat.find_spec hex⟩
  intro j hj
  exact not_not.mp (Nat.find_min hex hj)

variable {m' : Nat}

/-- What has come is less than half a circle ahead of the first that is missing,
once the first of all has come. -/
theorem Standing.lt_of_mem (h : Standing f slots A m w) (near : Near f slots A m i)
    (hle : m ≤ m') (covered : ∀ j < m', j ∈ insert i A) (hpos : 0 < m') :
    ∀ j ∈ insert i A, j < m' + SeqNum.half := by
  intro j hj
  have hk := departed_le f slots m
  rcases Nat.eq_zero_or_pos (departed f slots m) with hzero | hsome
  · have := (h.spread_insert near hzero j hj 0 (covered 0 hpos)).1
    omega
  · rcases Finset.mem_insert.mp hj with rfl | hj
    · have := (near.last hsome).1
      omega
    · have := h.reach hsome j hj
      omega

/-- Nothing that has come is half a circle ahead of what had left when it came. -/
theorem Standing.reach_insert (h : Standing f slots A m w) (near : Near f slots A m i)
    (him : m ≤ i) (hle : m ≤ m') (covered : ∀ j < m', j ∈ insert i A)
    (hpos : 0 < departed f slots m') :
    ∀ j ∈ insert i A,
      j + 1 < max 1 (min (departed f slots j) (departed f slots m')) + SeqNum.half := by
  intro j hj
  have hmono := departed_mono f slots hle
  rcases Nat.eq_zero_or_pos (departed f slots m) with hk | hk
  · have hm' := departed_le f slots m'
    have := (h.spread_insert near hk j hj 0 (covered 0 (by omega))).1
    omega
  · rcases Finset.mem_insert.mp hj with rfl | hj
    · have := (near.last hk).1
      have := departed_mono f slots him
      omega
    · have := h.reach hk j hj
      omega

/-- Few packets wait behind the first hole. -/
theorem Orderly.length_later_le (h : Orderly p slots A) (missing : m ∉ A) :
    (gather (fun j => decide (j ∈ A)) m (slots.drop m)).length ≤ p.tolerance := by
  rcases Nat.lt_or_ge m slots.length with hlt | hge
  · refine (length_gather_le ?_).trans (h.short m hlt missing)
    intro j hj hkeep
    rw [decide_eq_true_eq] at hkeep
    refine Finset.mem_filter.mpr ⟨hkeep, ?_⟩
    rcases Nat.eq_or_lt_of_le hj with rfl | hlt
    · exact absurd hkeep missing
    · exact hlt
  · simp [List.drop_of_length_le hge, gather]

/-- Before the first packet has come, nothing is let go. -/
theorem Orderly.settle_waits (h : Orderly p slots A) (missing : 0 ∉ A) :
    ∃ es, settle p f ⟨gather (fun j => decide (j ∈ A)) 0 slots, none⟩ =
        (⟨gather (fun j => decide (j ∈ A)) 0 slots, none⟩, es) ∧
      es.flatMap Event.serial = [] := by
  have hshort := h.length_later_le missing
  rw [List.drop_zero] at hshort
  cases hb : gather (fun j => decide (j ∈ A)) 0 slots with
  | nil =>
      refine ⟨[], settle_of_settled ?_, rfl⟩
      rfl
  | cons head tail =>
      obtain ⟨i, hget, hi, hbefore⟩ := exists_of_head?_gather (s := head) (by rw [hb]; rfl)
      simp only [Nat.zero_add, decide_eq_true_eq, decide_eq_false_iff_not] at hi hbefore
      have hpos : 0 < i := by
        apply Nat.pos_of_ne_zero
        rintro rfl
        exact missing hi
      have horphan : head.placement.isContinuation := by
        rcases h.begun with hzero | ⟨a, ha, hrow⟩
        · exact absurd hzero missing
        · refine hrow i head hpos ?_ hget
          apply Nat.le_of_not_lt
          intro hlt
          exact hbefore a hlt ha
      rw [hb] at hshort
      exact ⟨_, Window.settle_waits horphan hshort, rfl⟩

/-- **Settling what has come** amounts to the packets before the first hole in
order, with the others behind them. -/
theorem Standing.settle_insert (h : Standing f slots A m w) (hst : IsStream f slots)
    (near : Near f slots A m i) (orderly : Orderly p slots (insert i A))
    (allowed : p.discardOrphans) (hle : m ≤ m') (hlen : m' ≤ slots.length)
    (covered : ∀ j < m', j ∈ insert i A) (missing : m' ∉ insert i A) :
    ∃ es, settle p f
        ⟨gather (fun j => departed f slots m ≤ j && decide (j ∈ insert i A)) 0 slots, w.consumed⟩ =
        (⟨(inOrder f slots m').1.buffer ++
          gather (fun j => decide (j ∈ insert i A)) m' (slots.drop m'),
          (inOrder f slots m').1.consumed⟩, es) ∧
      (inOrder f slots m').2 = (inOrder f slots m).2 ++ es.flatMap Event.serial := by
  have hshort := orderly.length_later_le missing
  have hconsumed : w.consumed = (inOrder f slots m).1.consumed := by rw [h.window]
  rw [hconsumed]
  rcases Nat.eq_zero_or_pos m' with rfl | hpos
  · -- the first packet of the stream is not there, and what is there waits for it
    obtain rfl : m = 0 := Nat.le_zero.mp hle
    obtain ⟨es, hsettle, hserial⟩ := orderly.settle_waits (f := f) missing
    have hk : departed f slots 0 = 0 := Nat.le_zero.mp (departed_le f slots 0)
    refine ⟨es, ?_, by rw [hserial, List.append_nil]⟩
    simp only [hk, Nat.zero_le, decide_true, Bool.true_and, List.drop_zero]
    exact hsettle
  · -- up to the next hole there are `k` packets now, which are absorbed in order
    obtain ⟨k, rfl⟩ := Nat.exists_eq_add_of_le hle
    have hnear := h.lt_of_mem near hle covered hpos
    have hole : ∀ t ∈ (gather (fun j => decide (j ∈ insert i A)) (m + k)
        (slots.drop (m + k))).head?, ∃ j, slots[j]? = some t ∧ m + k < j ∧
          j < m + k + SeqNum.half := by
      intro t ht
      obtain ⟨j, hget, hj, -⟩ := exists_of_head?_gather ht
      rw [decide_eq_true_eq] at hj
      rw [List.getElem?_drop] at hget
      refine ⟨m + k + j, hget, ?_, hnear _ hj⟩
      rcases Nat.eq_zero_or_pos j with rfl | hpos
      · exact absurd hj missing
      · omega
    have hready := hst.ready_inOrder hpos hlen hole
    obtain ⟨hwindow, hevents⟩ := hready.settles (p := p) hshort (fun _ _ => allowed)
    have hbuffer : gather (fun j => departed f slots m ≤ j && decide (j ∈ insert i A)) 0 slots =
        (inOrder f slots m).1.buffer ++ ((slots.drop m).take k ++
          gather (fun j => decide (j ∈ insert i A)) (m + k) (slots.drop (m + k))) := by
      have hk := departed_le f slots m
      rw [gather_from (by omega) hlen covered, buffer_inOrder, ← List.append_assoc]
      congr 1
      rw [List.take_add, List.drop_append_of_le_length]
      rw [List.length_take_of_le (by omega)]
      exact hk
    rw [hbuffer, inOrder_add]
    exact ⟨_, Prod.ext hwindow rfl, by rw [hevents]⟩

/-- **A new packet** makes a window of one more position. -/
theorem Standing.feed_new {packet : Rtp.Packet} (h : Standing f slots A m w)
    (hst : IsStream f slots) (near : Near f slots A m i)
    (hs : slots[i]? = some (Slot.ofPacket f.codec packet)) (hA : i ∉ A)
    (orderly : Orderly p slots (insert i A)) (allowed : p.discardOrphans)
    (room : p.tolerance + longestOpenRun (slots.map Slot.placement) ≤ p.capacity) :
    ∃ m', Standing f slots (insert i A) m' (w.feed p f packet).1 ∧
      (inOrder f slots m').2 =
        (inOrder f slots m).2 ++ (w.feed p f packet).2.flatMap Event.serial ∧
      (w.feed p f packet).2.countP Event.isRefusal = 0 := by
  have hi : i < slots.length := (List.getElem?_eq_some_iff.mp hs).1
  obtain ⟨m', covered, missing⟩ := exists_first_missing (insert i A)
  have hle : m ≤ m' := by
    apply Nat.le_of_not_lt
    intro hlt
    exact missing (Finset.mem_insert_of_mem (h.covered m' hlt))
  -- a stream is finite, so its first missing position is at most its length
  have bounded : ∀ j ∈ insert i A, j < slots.length := by
    intro j hj
    rcases Finset.mem_insert.mp hj with rfl | hj
    · exact hi
    · exact h.bounded j hj
  have hlen : m' ≤ slots.length := by
    apply Nat.le_of_not_lt
    intro hlt
    exact Nat.lt_irrefl _ (bounded _ (covered slots.length hlt))
  have him : m ≤ i := by
    apply Nat.le_of_not_lt
    intro hlt
    exact hA (h.covered i hlt)
  have hik : departed f slots m ≤ i := (departed_le f slots m).trans him
  obtain ⟨es, hsettle, hserial⟩ :=
    h.settle_insert hst near orderly allowed hle hlen covered missing
  -- what is left after settling fits into the buffer, so nothing is evicted
  have hfeed : w.feed p f packet =
      (⟨(inOrder f slots m').1.buffer ++
        gather (fun j => decide (j ∈ insert i A)) m' (slots.drop m'),
        (inOrder f slots m').1.consumed⟩, .classified packet :: es) := by
    have hfresh := h.staleAfter?_eq_none hst near hs hik
    have hins := h.insert?_eq hst near hs hik
    rw [if_neg hA] at hins
    have hbuffer : ((inOrder f slots m').1.buffer ++
        gather (fun j => decide (j ∈ insert i A)) m' (slots.drop m')).length ≤ p.capacity := by
      have := hst.buffer_le hlen
      have := orderly.length_later_le missing
      rw [List.length_append]
      omega
    have htrim := trim_of_length_le (p := p) (f := f)
      (w := ⟨_, (inOrder f slots m').1.consumed⟩) hbuffer
    unfold feed
    rw [show w.staleAfter? packet.seq = none from hfresh]
    simp only [hins, hsettle, htrim, List.append_nil]
  have hmoves := settle_moves (p := p) (f := f)
    ⟨gather (fun j => departed f slots m ≤ j && decide (j ∈ insert i A)) 0 slots, w.consumed⟩
  rw [hsettle] at hmoves
  rw [hfeed]
  refine ⟨m', ⟨covered, missing, bounded, rfl, ?_, ?_⟩, by simpa [Event.serial] using hserial, ?_⟩
  · intro hzero
    have hmono := departed_mono f slots hle
    exact h.spread_insert near (by omega)
  · exact h.reach_insert near him hle covered
  · rw [List.countP_cons, hmoves.countP_isRefusal]
    rfl

end Standing

end Window

end RtpReassembly
