import RtpReassembly.Proofs.Insertion
import RtpReassembly.Proofs.Row
import Mathlib.Data.Finset.Card

/-!
# Packets of a stream that have arrived

The positions of a stream are counted without wrapping.  Whatever the order of
arrival, the buffer holds the packets at some set of positions in the order of
the stream; `gather` lists them.

* `ahead_of_positions`: on half a circle, distances are those of positions;
* `insert?_gather`: insertion adds a position.
-/

namespace RtpReassembly

/-- The packets of a row at the positions that are kept; the first one stands at
`start`. -/
def gather (keep : Nat → Bool) (start : Nat) (row : List Slot) : List Slot :=
  ((row.zipIdx start).filter (fun x => keep x.2)).map Prod.fst

variable {keep keep' : Nat → Bool} {start : Nat} {row front back : List Slot}

/-- Packets of two stretches are gathered apart, each from where it starts. -/
theorem gather_append :
    gather keep start (front ++ back) =
      gather keep start front ++ gather keep (start + front.length) back := by
  simp [gather, List.zipIdx_append]

theorem gather_cons (s : Slot) :
    gather keep start (s :: row) =
      if keep start then s :: gather keep (start + 1) row else gather keep (start + 1) row := by
  cases h : keep start <;> simp [gather, h]

/-- What is gathered are the packets at the positions that are kept. -/
theorem mem_gather {s : Slot} :
    s ∈ gather keep start row ↔ ∃ i, row[i]? = some s ∧ keep (start + i) := by
  constructor
  · intro h
    obtain ⟨⟨t, j⟩, hmem, rfl⟩ := List.mem_map.mp h
    obtain ⟨hj, hkeep⟩ := List.mem_filter.mp hmem
    obtain ⟨hle, hget⟩ := List.mk_mem_zipIdx_iff_le_and_getElem?_sub.mp hj
    exact ⟨j - start, hget, by rwa [Nat.add_sub_cancel' hle]⟩
  · rintro ⟨i, hget, hkeep⟩
    refine List.mem_map.mpr ⟨(s, start + i), List.mem_filter.mpr ⟨?_, hkeep⟩, rfl⟩
    exact List.mk_add_mem_zipIdx_iff_getElem?.mpr hget

/-- Only the positions of the row matter. -/
theorem gather_congr (h : ∀ i < row.length, keep (start + i) = keep' (start + i)) :
    gather keep start row = gather keep' start row := by
  unfold gather
  congr 1
  apply List.filter_congr
  intro x hx
  have hle := List.le_snd_of_mem_zipIdx hx
  have hlt := List.snd_lt_add_of_mem_zipIdx hx
  have := h (x.2 - start) (by omega)
  rwa [Nat.add_sub_cancel' hle] at this

/-- If all positions are kept, all packets are. -/
theorem gather_eq_self (h : ∀ i < row.length, keep (start + i)) :
    gather keep start row = row := by
  have hall : gather keep start row = gather (fun _ => true) start row :=
    gather_congr (by simpa using h)
  rw [hall]
  simp [gather, List.zipIdx_map_fst]

/-- If no position is kept, no packet is. -/
theorem gather_eq_nil (h : ∀ i < row.length, keep (start + i) = false) :
    gather keep start row = [] := by
  have hnone : gather keep start row = gather (fun _ => false) start row :=
    gather_congr (by simpa using h)
  rw [hnone]
  simp [gather]

/-- The first packet that is gathered. -/
theorem exists_of_head?_gather {s : Slot} (h : (gather keep start row).head? = some s) :
    ∃ i, row[i]? = some s ∧ keep (start + i) ∧ ∀ j < i, keep (start + j) = false := by
  induction row generalizing start with
  | nil => simp [gather] at h
  | cons t row ih =>
      rw [gather_cons] at h
      split at h
      · rename_i hkeep
        obtain rfl := Option.some.inj h
        exact ⟨0, rfl, hkeep, by simp⟩
      · rename_i hkeep
        obtain ⟨i, hget, hi, hbefore⟩ := ih h
        refine ⟨i + 1, by simpa using hget, by rwa [Nat.add_right_comm] at hi, ?_⟩
        intro j hj
        cases j with
        | zero => simpa using hkeep
        | succ j =>
            have := hbefore j (by omega)
            rwa [Nat.add_right_comm] at this

/-- Packets are gathered in the order of their positions. -/
theorem gather_pairwise {R : Slot → Slot → Prop}
    (h : ∀ i j s t, i < j → keep (start + i) → keep (start + j) → row[i]? = some s →
      row[j]? = some t → R s t) : (gather keep start row).Pairwise R := by
  induction row generalizing start with
  | nil => exact .nil
  | cons t row ih =>
      have hrest : (gather keep (start + 1) row).Pairwise R := by
        apply ih
        intro i j s u hij hi hj hs hu
        rw [Nat.add_right_comm] at hi hj
        exact h (i + 1) (j + 1) s u (by omega) hi hj (by simpa using hs) (by simpa using hu)
      rw [gather_cons]
      split
      · rename_i hkeep
        refine List.pairwise_cons.mpr ⟨?_, hrest⟩
        intro u hu
        obtain ⟨j, hget, hj⟩ := mem_gather.mp hu
        rw [Nat.add_right_comm] at hj
        exact h 0 (j + 1) t u (by omega) hkeep hj rfl (by simpa using hget)
      · exact hrest

/-- No more packets are gathered than positions are kept. -/
theorem length_gather_le {A : Finset Nat} (h : ∀ j, start ≤ j → keep j → j ∈ A) :
    (gather keep start row).length ≤ A.card := by
  have hnodup : (((row.zipIdx start).filter (fun x => keep x.2)).map Prod.snd).Nodup := by
    apply List.Nodup.sublist (List.Sublist.map _ List.filter_sublist)
    rw [List.zipIdx_map_snd]
    exact List.nodup_range'
  have hlen : (gather keep start row).length =
      (((row.zipIdx start).filter (fun x => keep x.2)).map Prod.snd).toFinset.card := by
    rw [List.toFinset_card_of_nodup hnodup, gather, List.length_map, List.length_map]
  rw [hlen]
  apply Finset.card_le_card
  intro j hj
  obtain ⟨x, hx, rfl⟩ := List.mem_map.mp (List.mem_toFinset.mp hj)
  obtain ⟨hmem, hkeep⟩ := List.mem_filter.mp hx
  exact h x.2 (List.le_snd_of_mem_zipIdx hmem) hkeep

/-- Packets are gathered before a position, at it and behind it. -/
theorem gather_at {i : Nat} (hi : i < row.length) :
    gather keep 0 row = gather keep 0 (row.take i) ++
      if keep i then row[i] :: gather keep (i + 1) (row.drop (i + 1))
      else gather keep (i + 1) (row.drop (i + 1)) := by
  have hlen : (row.take i).length = i := List.length_take_of_le (Nat.le_of_lt hi)
  have hsplit : row = row.take i ++ row[i] :: row.drop (i + 1) := by simp
  conv_lhs => rw [hsplit, gather_append, gather_cons, hlen, Nat.zero_add]

/-- One more position is one more packet. -/
theorem gather_insert {i : Nat} (hi : i < row.length) :
    gather (fun j => keep j || j == i) 0 row =
      gather keep 0 (row.take i) ++ row[i] :: gather keep (i + 1) (row.drop (i + 1)) := by
  have hother : ∀ j, j ≠ i → (keep j || j == i) = keep j := by
    intro j hne
    rw [beq_eq_false_iff_ne.mpr hne, Bool.or_false]
  rw [gather_at hi, if_pos (by simp)]
  congr 1
  · apply gather_congr
    intro j hj
    rw [List.length_take] at hj
    exact hother (0 + j) (by omega)
  · congr 1
    apply gather_congr
    intro j _
    exact hother (i + 1 + j) (by omega)

section Insertion

variable {slots : List Slot} {ρ : Nat} {r : Slot}

/-- On half a circle, distances are those of positions. -/
theorem ahead_of_positions {i : Nat} {s : Slot} (hcont : Contiguous slots)
    (hr : slots[ρ]? = some r) (hs : slots[i]? = some s) (hle : ρ ≤ i)
    (hlt : i < ρ + 2 ^ 16) : SeqNum.ahead s.seq r.seq = i - ρ := by
  have hr' : (slots.map Slot.seq)[ρ]? = some r.seq := by simp [hr]
  have hs' : (slots.map Slot.seq)[i]? = some s.seq := by simp [hs]
  rw [hcont.ahead_getElem? hle hr' hs', Nat.mod_eq_of_lt (by omega)]

variable (hcont : Contiguous slots) (hr : slots[ρ]? = some r)
variable (hnear : ∀ j, keep j → ρ ≤ j ∧ j < ρ + SeqNum.half)
include hcont hr hnear

/-- Packets that are gathered from half a circle are sorted. -/
theorem sortedFrom_gather :
    ReorderBuffer.SortedFrom r.seq SeqNum.half (gather keep 0 slots) := by
  have hdist : ∀ j s, keep j → slots[j]? = some s → SeqNum.ahead s.seq r.seq = j - ρ := by
    intro j s hj hs
    obtain ⟨hle, hlt⟩ := hnear j hj
    exact ahead_of_positions hcont hr hs hle (by unfold SeqNum.half at hlt; omega)
  constructor
  · apply gather_pairwise
    intro i j s t hij hi hj hs ht
    rw [Nat.zero_add] at hi hj
    rw [hdist i s hi hs, hdist j t hj ht]
    have := hnear i hi
    omega
  · intro s hs
    obtain ⟨j, hget, hj⟩ := mem_gather.mp hs
    rw [Nat.zero_add] at hj
    rw [hdist j s hj hget]
    have := hnear j hj
    omega

/-- **Insertion gathers.**  A packet of the same half circle goes to its
position; it is refused exactly if it is there. -/
theorem insert?_gather {i : Nat} {s : Slot} (hs : slots[i]? = some s) (hle : ρ ≤ i)
    (hlt : i < ρ + SeqNum.half) :
    ReorderBuffer.insert? (gather keep 0 slots) s =
      if keep i then none else some (gather (fun j => keep j || j == i) 0 slots) := by
  have hdist : ∀ j t, keep j → slots[j]? = some t → SeqNum.ahead t.seq r.seq = j - ρ := by
    intro j t hj ht
    obtain ⟨hle, hlt⟩ := hnear j hj
    exact ahead_of_positions hcont hr ht hle (by unfold SeqNum.half at hlt; omega)
  have hsdist : SeqNum.ahead s.seq r.seq = i - ρ :=
    ahead_of_positions hcont hr hs hle (by unfold SeqNum.half at hlt; omega)
  have hsorted := sortedFrom_gather hcont hr hnear
  by_cases hkeep : keep i
  · have hmem : s.seq ∈ (gather keep 0 slots).map Slot.seq :=
      List.mem_map_of_mem (mem_gather.mpr ⟨i, hs, by rwa [Nat.zero_add]⟩)
    rw [ReorderBuffer.insert?_of_sorted hsorted (by omega), if_pos hmem, if_pos hkeep]
  · obtain ⟨hi, rfl⟩ := List.getElem?_eq_some_iff.mp hs
    have hgather : gather keep 0 slots =
        gather keep 0 (slots.take i) ++ gather keep (i + 1) (slots.drop (i + 1)) := by
      rw [gather_at hi, if_neg hkeep]
    rw [if_neg hkeep, gather_insert hi, hgather]
    refine ReorderBuffer.insert?_between (hgather ▸ hsorted) (by omega) ?_ ?_
    · intro t ht
      obtain ⟨j, hget, hj⟩ := mem_gather.mp ht
      rw [Nat.zero_add] at hj
      rw [List.getElem?_take] at hget
      split at hget
      · rw [hdist j t hj hget, hsdist]
        have := hnear j hj
        omega
      · simp at hget
    · intro t ht
      obtain ⟨j, hget, hj⟩ := mem_gather.mp ht
      rw [List.getElem?_drop] at hget
      rw [hdist (i + 1 + j) t hj hget, hsdist]
      omega

end Insertion

end RtpReassembly
