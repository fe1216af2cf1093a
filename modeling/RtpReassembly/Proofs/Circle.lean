import RtpReassembly.SeqNum
import Mathlib.Data.List.Chain
import Mathlib.Algebra.Group.Nat.Defs
import Mathlib.Algebra.Group.Int.Defs

/-!
# Distances on the circle

The circular order is no order on the whole circle.  Seen from one fixed number
`r`, though, every number has a distance `ahead · r`, and on the half circle in
front of `r` the circular order is the order of these distances.

* `ahead_of_le`, `ahead_of_lt` change the number that distances are seen from;
* `order_of_ahead`, `offset_of_ahead` read `order` and `offset` off distances;
* `Consecutive` rows of numbers go on by one, and so do their distances.
-/

namespace RtpReassembly.SeqNum

/-- How far one number is ahead of another, as a remainder in the natural numbers.
-/
theorem ahead_eq_mod (a b : SeqNum) :
    ahead a b = (2 ^ 16 - b.toNat + a.toNat) % 2 ^ 16 := by
  simp only [ahead, UInt16.toNat_sub]

@[simp] theorem ahead_self (a : SeqNum) : ahead a a = 0 := by
  simp [ahead]

/-- Numbers at one distance are equal. -/
theorem ahead_inj {a b r : SeqNum} (h : ahead a r = ahead b r) : a = b := by
  have ha := a.toNat_lt
  have hb := b.toNat_lt
  have hr := r.toNat_lt
  simp only [ahead_eq_mod] at h
  exact UInt16.toNat_inj.mp (by omega)

/-- Only a number itself is not ahead of it. -/
theorem ahead_eq_zero_iff {a r : SeqNum} : ahead a r = 0 ↔ a = r := by
  constructor
  · intro h
    exact ahead_inj (h.trans (ahead_self r).symm)
  · rintro rfl
    exact ahead_self a

/-- The number that distances are seen from is not behind another. -/
theorem ne_of_ahead_lt {a b r : SeqNum} (h : ahead a r < ahead b r) : b ≠ r := by
  rintro rfl
  simp at h

/-- The distance between two numbers, seen from a third. -/
theorem ahead_of_le {a b r : SeqNum} (h : ahead b r ≤ ahead a r) :
    ahead a b = ahead a r - ahead b r := by
  have ha := a.toNat_lt
  have hb := b.toNat_lt
  have hr := r.toNat_lt
  simp only [ahead_eq_mod] at h ⊢
  omega

/-- Going forward to a number that is nearer leads around the circle. -/
theorem ahead_of_lt {a b r : SeqNum} (h : ahead a r < ahead b r) :
    ahead a b = 2 ^ 16 - (ahead b r - ahead a r) := by
  have ha := a.toNat_lt
  have hb := b.toNat_lt
  have hr := r.toNat_lt
  simp only [ahead_eq_mod] at h ⊢
  omega

/-- The number before one that is not `r` is one nearer. -/
theorem ahead_pred {a r : SeqNum} (h : a ≠ r) : ahead (a - 1) r = ahead a r - 1 := by
  have hne : ahead a r ≠ 0 := fun hz => h (ahead_eq_zero_iff.mp hz)
  have ha := a.toNat_lt
  have hr := r.toNat_lt
  simp only [ahead_eq_mod, UInt16.toNat_sub, UInt16.reduceToNat] at hne ⊢
  omega

/-- Distances between the numbers of a stream are those of its positions. -/
theorem ahead_ofNat (s : SeqNum) {i j : Nat} (h : j ≤ i) :
    ahead (s + UInt16.ofNat i) (s + UInt16.ofNat j) = (i - j) % 2 ^ 16 := by
  have hs := s.toNat_lt
  simp only [ahead_eq_mod, UInt16.toNat_add, UInt16.toNat_ofNat']
  omega

/-- A number compares greater exactly if it is ahead of the other by less than half a circle. -/
theorem order_eq_gt_iff {a b : SeqNum} :
    order a b = .gt ↔ 0 < ahead a b ∧ ahead a b < half := by
  unfold order
  by_cases h : a = b
  · simp [h]
  · have hne : ahead a b ≠ 0 := fun hz => h (ahead_eq_zero_iff.mp hz)
    by_cases hlt : ahead a b < half
    · simp [h, hlt]
      omega
    · simp [h, hlt]

/-- Only equal numbers compare equal. -/
theorem order_eq_eq_iff {a b : SeqNum} : order a b = .eq ↔ a = b := by
  unfold order
  by_cases h : a = b
  · simp [h]
  · by_cases hlt : ahead a b < half <;> simp [h, hlt]

/-- On the half circle in front of `r` the circular order is that of the
distances from `r`. -/
theorem order_of_ahead {a b r : SeqNum} (ha : ahead a r < half) (hb : ahead b r < half) :
    order a b = compare (ahead a r) (ahead b r) := by
  unfold order
  by_cases h : a = b
  · simp [h]
  · have hne : ahead a r ≠ ahead b r := fun heq => h (ahead_inj heq)
    rw [if_neg h]
    by_cases hlt : ahead a r < ahead b r
    · have hfar := ahead_of_lt hlt
      rw [if_neg (by unfold half at *; omega), Nat.compare_eq_lt.mpr hlt]
    · have hnear := ahead_of_le (Nat.le_of_not_lt hlt)
      rw [if_pos (by omega), Nat.compare_eq_gt.mpr (by omega)]

/-- On the half circle in front of `r` the signed distance is the difference of
the distances from `r`. -/
theorem offset_of_ahead {a b r : SeqNum} (ha : ahead a r < half) (hb : ahead b r < half) :
    offset a b = (ahead a r : Int) - ahead b r := by
  unfold offset
  unfold half at *
  by_cases hlt : ahead a r < ahead b r
  · have hfar := ahead_of_lt hlt
    rw [if_neg (by omega)]
    omega
  · have hnear := ahead_of_le (Nat.le_of_not_lt hlt)
    rw [if_pos (by omega)]
    omega

/-- The next number is the one that is ahead by one. -/
theorem follows_iff {a b : SeqNum} : follows a b ↔ ahead b a = 1 := by
  have ha := a.toNat_lt
  have hb := b.toNat_lt
  simp only [follows, beq_iff_eq, ← UInt16.toNat_inj, UInt16.toNat_add, UInt16.reduceToNat,
    ahead_eq_mod]
  omega

/-- The number after another is one farther, unless it is the one that
distances are seen from. -/
theorem ahead_of_follows {a b r : SeqNum} (h : follows a b) (hb : b ≠ r) :
    ahead b r = ahead a r + 1 := by
  have hpred : a = b - 1 := by
    rw [show b = a + 1 by simpa [follows] using h]
    simp
  have hne : ahead b r ≠ 0 := fun hz => hb (ahead_eq_zero_iff.mp hz)
  rw [hpred, ahead_pred hb]
  omega

/-- Numbers of which each is the one after the number before it. -/
def Consecutive (seqs : List SeqNum) : Prop :=
  seqs.IsChain (fun a b => follows a b)

instance (seqs : List SeqNum) : Decidable (Consecutive seqs) := by
  unfold Consecutive; infer_instance

theorem consecutive_cons_cons {a b : SeqNum} {rest : List SeqNum} :
    Consecutive (a :: b :: rest) ↔ follows a b ∧ Consecutive (b :: rest) :=
  List.isChain_cons_cons

/-- Two rows put one behind the other are one, if the second follows on the
first. -/
theorem consecutive_append {front back : List SeqNum} :
    Consecutive (front ++ back) ↔ Consecutive front ∧ Consecutive back ∧
      ∀ a ∈ front.getLast?, ∀ b ∈ back.head?, follows a b :=
  List.isChain_append

/-- The numbers of a row are those from its first on. -/
theorem Consecutive.getElem?_eq {a b : SeqNum} {rest : List SeqNum} {i : Nat}
    (h : Consecutive (a :: rest)) (hb : (a :: rest)[i]? = some b) : b = a + UInt16.ofNat i := by
  induction i generalizing a rest with
  | zero =>
      obtain rfl := Option.some.inj hb
      simp
  | succ i ih =>
      cases rest with
      | nil => simp at hb
      | cons c rest =>
          obtain ⟨hnext, hrest⟩ := consecutive_cons_cons.mp h
          have hc : c = a + 1 := by simpa [follows] using hnext
          rw [ih hrest (by simpa using hb), hc, UInt16.ofNat_add, UInt16.add_assoc,
            UInt16.add_comm 1]
          rfl

/-- The distance between two numbers of a row is that of their places. -/
theorem Consecutive.ahead_getElem? {seqs : List SeqNum} {a b : SeqNum} {i j : Nat}
    (h : Consecutive seqs) (hij : i ≤ j) (ha : seqs[i]? = some a) (hb : seqs[j]? = some b) :
    ahead b a = (j - i) % 2 ^ 16 := by
  cases seqs with
  | nil => simp at ha
  | cons c rest => rw [h.getElem?_eq ha, h.getElem?_eq hb, ahead_ofNat c hij]

end RtpReassembly.SeqNum
