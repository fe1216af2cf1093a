import RtpReassembly.ReorderBuffer
import RtpReassembly.Proofs.Circle

/-!
# Insertion into the reorder buffer

Insertion looks from the tail and compares on the circle, so by itself it says
something about the packets that it passes only.

* `insert?_eq_some`, `insert?_eq_none` say what was passed;
* `insert?_of_sorted` puts a packet where its distance from a number `r` wants
  it, in a buffer that is sorted by these distances on the half circle in front
  of `r`.
-/

namespace RtpReassembly.ReorderBuffer

/-- Where the scan from the tail puts a packet: in front of it are those that
compare less, and the first one that does not compares greater. -/
theorem insertFromTail?_eq_some {s : Slot} {b b' : List Slot}
    (h : insertFromTail? s b = some b') :
    ∃ newer older, b = newer ++ older ∧ b' = newer ++ s :: older ∧
      (∀ t ∈ newer, SeqNum.order s.seq t.seq = .lt) ∧
      ∀ t ∈ older.head?, SeqNum.order s.seq t.seq = .gt := by
  induction b generalizing b' with
  | nil =>
      simp only [insertFromTail?, Option.some.injEq] at h
      exact ⟨[], [], rfl, h.symm, by simp, by simp⟩
  | cons last older ih =>
      simp only [insertFromTail?] at h
      split at h
      · simp at h
      · rename_i hgt
        simp only [Option.some.injEq] at h
        exact ⟨[], last :: older, rfl, h.symm, by simp, by simpa using hgt⟩
      · rename_i hlt
        obtain ⟨b'', hb, rfl⟩ := Option.map_eq_some_iff.mp h
        obtain ⟨newer, rest, rfl, rfl, hpassed, hstop⟩ := ih hb
        refine ⟨last :: newer, rest, rfl, rfl, ?_, hstop⟩
        intro t ht
        rcases List.mem_cons.mp ht with rfl | ht
        · exact hlt
        · exact hpassed t ht

/-- The scan refuses a packet only because it meets one of the same number. -/
theorem insertFromTail?_eq_none {s : Slot} {b : List Slot} (h : insertFromTail? s b = none) :
    ∃ newer twin older, b = newer ++ twin :: older ∧ twin.seq = s.seq ∧
      ∀ t ∈ newer, SeqNum.order s.seq t.seq = .lt := by
  induction b with
  | nil => simp [insertFromTail?] at h
  | cons last older ih =>
      simp only [insertFromTail?] at h
      split at h
      · rename_i heq
        exact ⟨[], last, older, rfl, (SeqNum.order_eq_eq_iff.mp heq).symm, by simp⟩
      · simp at h
      · rename_i hlt
        obtain ⟨newer, twin, rest, rfl, htwin, hpassed⟩ := ih (Option.map_eq_none_iff.mp h)
        refine ⟨last :: newer, twin, rest, rfl, htwin, ?_⟩
        intro t ht
        rcases List.mem_cons.mp ht with rfl | ht
        · exact hlt
        · exact hpassed t ht

/-- A packet that is put in comes before all that were passed and after the one
that was not. -/
theorem insert?_eq_some {b b' : ReorderBuffer} {s : Slot} (h : b.insert? s = some b') :
    ∃ older newer, b = older ++ newer ∧ b' = older ++ s :: newer ∧
      (∀ t ∈ newer, SeqNum.order s.seq t.seq = .lt) ∧
      ∀ t ∈ older.getLast?, SeqNum.order s.seq t.seq = .gt := by
  obtain ⟨c, hc, rfl⟩ := Option.map_eq_some_iff.mp h
  obtain ⟨newer, older, hb, rfl, hpassed, hstop⟩ := insertFromTail?_eq_some hc
  refine ⟨older.reverse, newer.reverse, ?_, by simp, by simpa using hpassed, by simpa using hstop⟩
  rw [← List.reverse_append, ← hb, List.reverse_reverse]

/-- A packet that is refused has a twin in the buffer. -/
theorem insert?_eq_none {b : ReorderBuffer} {s : Slot} (h : b.insert? s = none) :
    ∃ older twin newer, b = older ++ twin :: newer ∧ twin.seq = s.seq ∧
      ∀ t ∈ newer, SeqNum.order s.seq t.seq = .lt := by
  obtain ⟨newer, twin, older, hb, htwin, hpassed⟩ :=
    insertFromTail?_eq_none (Option.map_eq_none_iff.mp h)
  refine ⟨older.reverse, twin, newer.reverse, ?_, htwin, by simpa using hpassed⟩
  rw [← List.reverse_reverse b, hb]
  simp

/-- Insertion adds the packet and nothing else. -/
theorem insert?_perm {b b' : ReorderBuffer} {s : Slot} (h : b.insert? s = some b') :
    b'.Perm (s :: b) := by
  obtain ⟨older, newer, rfl, rfl, -, -⟩ := insert?_eq_some h
  exact List.perm_middle

/-- The buffer is sorted by distances from `r`, all of which are below `bound`. -/
def SortedFrom (r : SeqNum) (bound : Nat) (b : ReorderBuffer) : Prop :=
  b.Pairwise (fun s t => SeqNum.ahead s.seq r < SeqNum.ahead t.seq r) ∧
    ∀ s ∈ b, SeqNum.ahead s.seq r < bound

variable {r : SeqNum}

/-- **Insertion sorts.**  In a buffer that is sorted by distances on the half
circle in front of `r`, a packet from there goes behind all that are nearer and
before all that are farther; it is refused exactly if its number is there. -/
theorem insert?_of_sorted {b : ReorderBuffer} {s : Slot}
    (hb : b.SortedFrom r SeqNum.half) (hs : SeqNum.ahead s.seq r < SeqNum.half) :
    b.insert? s =
      if s.seq ∈ b.map Slot.seq then none
      else some (b.filter (fun t => SeqNum.ahead t.seq r < SeqNum.ahead s.seq r) ++
        s :: b.filter (fun t => SeqNum.ahead s.seq r < SeqNum.ahead t.seq r)) := by
  obtain ⟨hsorted, hbound⟩ := hb
  have horder : ∀ t ∈ b, SeqNum.order s.seq t.seq =
      compare (SeqNum.ahead s.seq r) (SeqNum.ahead t.seq r) :=
    fun t ht => SeqNum.order_of_ahead hs (hbound t ht)
  cases hins : b.insert? s with
  | none =>
      obtain ⟨older, twin, newer, rfl, htwin, -⟩ := insert?_eq_none hins
      rw [if_pos (by simp [htwin])]
  | some b' =>
      obtain ⟨older, newer, rfl, rfl, hpassed, hstop⟩ := insert?_eq_some hins
      have hnewer : ∀ t ∈ newer, SeqNum.ahead s.seq r < SeqNum.ahead t.seq r := by
        intro t ht
        have hlt := hpassed t ht
        rw [horder t (List.mem_append_right _ ht)] at hlt
        exact Nat.compare_eq_lt.mp hlt
      -- the scan has only looked at the last of these; the others are nearer still
      have holder : ∀ t ∈ older, SeqNum.ahead t.seq r < SeqNum.ahead s.seq r := by
        intro t ht
        obtain ⟨front, last, rfl⟩ : ∃ front last, older = front ++ [last] :=
          ⟨_, _, (List.dropLast_concat_getLast (List.ne_nil_of_mem ht)).symm⟩
        have hgt := hstop last (by simp)
        rw [horder last (by simp)] at hgt
        have hlast := Nat.compare_eq_gt.mp hgt
        rcases List.mem_append.mp ht with ht | ht
        · have := (List.pairwise_append.mp (List.pairwise_append.mp hsorted).1).2.2 t ht last
            (by simp)
          omega
        · obtain rfl := List.mem_singleton.mp ht
          exact hlast
      have habsent : s.seq ∉ (older ++ newer).map Slot.seq := by
        intro hmem
        obtain ⟨t, ht, htwin⟩ := List.mem_map.mp hmem
        rcases List.mem_append.mp ht with ht | ht
        · exact Nat.lt_irrefl _ (htwin ▸ holder t ht)
        · exact Nat.lt_irrefl _ (htwin ▸ hnewer t ht)
      have hfilter₁ : older.filter (fun t => SeqNum.ahead s.seq r < SeqNum.ahead t.seq r) = [] :=
        List.filter_eq_nil_iff.mpr (fun t ht => by have := holder t ht; simp; omega)
      have hfilter₂ : newer.filter (fun t => SeqNum.ahead t.seq r < SeqNum.ahead s.seq r) = [] :=
        List.filter_eq_nil_iff.mpr (fun t ht => by have := hnewer t ht; simp; omega)
      rw [if_neg habsent, List.filter_append, List.filter_append, hfilter₁, hfilter₂,
        List.filter_eq_self.mpr (by simpa using holder),
        List.filter_eq_self.mpr (by simpa using hnewer), List.append_nil, List.nil_append]

/-- In a sorted buffer a packet goes between those that are nearer and those that
are further. -/
theorem insert?_between {older newer : List Slot} {s : Slot}
    (hb : SortedFrom r SeqNum.half (older ++ newer)) (hs : SeqNum.ahead s.seq r < SeqNum.half)
    (holder : ∀ t ∈ older, SeqNum.ahead t.seq r < SeqNum.ahead s.seq r)
    (hnewer : ∀ t ∈ newer, SeqNum.ahead s.seq r < SeqNum.ahead t.seq r) :
    insert? (older ++ newer) s = some (older ++ s :: newer) := by
  have habsent : s.seq ∉ (older ++ newer).map Slot.seq := by
    intro hmem
    obtain ⟨t, ht, htwin⟩ := List.mem_map.mp hmem
    rcases List.mem_append.mp ht with ht | ht
    · exact Nat.lt_irrefl _ (htwin ▸ holder t ht)
    · exact Nat.lt_irrefl _ (htwin ▸ hnewer t ht)
  have holder' : older.filter (fun t => SeqNum.ahead s.seq r < SeqNum.ahead t.seq r) = [] :=
    List.filter_eq_nil_iff.mpr (fun t ht => by have := holder t ht; simp; omega)
  have hnewer' : newer.filter (fun t => SeqNum.ahead t.seq r < SeqNum.ahead s.seq r) = [] :=
    List.filter_eq_nil_iff.mpr (fun t ht => by have := hnewer t ht; simp; omega)
  rw [insert?_of_sorted hb hs, if_neg habsent, List.filter_append, List.filter_append, holder',
    hnewer', List.filter_eq_self.mpr (by simpa using holder),
    List.filter_eq_self.mpr (by simpa using hnewer), List.append_nil, List.nil_append]

/-- Putting a packet of the half circle in front of `r` in keeps the buffer
sorted. -/
theorem SortedFrom.insert? {b b' : ReorderBuffer} {s : Slot}
    (hb : b.SortedFrom r SeqNum.half) (hs : SeqNum.ahead s.seq r < SeqNum.half)
    (h : b.insert? s = some b') : b'.SortedFrom r SeqNum.half := by
  rw [insert?_of_sorted hb hs] at h
  split at h
  · simp at h
  · simp only [Option.some.injEq] at h
    subst h
    obtain ⟨hsorted, hbound⟩ := hb
    constructor
    · rw [List.pairwise_append, List.pairwise_cons]
      refine ⟨hsorted.filter _, ⟨by simp, hsorted.filter _⟩, ?_⟩
      intro t ht u hu
      have htlt : SeqNum.ahead t.seq r < SeqNum.ahead s.seq r := by
        simpa using (List.mem_filter.mp ht).2
      rcases List.mem_cons.mp hu with rfl | hu
      · exact htlt
      · have : SeqNum.ahead s.seq r < SeqNum.ahead u.seq r := by
          simpa using (List.mem_filter.mp hu).2
        omega
    · intro t ht
      rcases List.mem_append.mp ht with ht | ht
      · exact hbound t (List.mem_of_mem_filter ht)
      · rcases List.mem_cons.mp ht with rfl | ht
        · exact hs
        · exact hbound t (List.mem_of_mem_filter ht)

/-- A packet that comes after the last one in the buffer goes to the tail. -/
theorem insert?_of_after {b : ReorderBuffer} {s : Slot}
    (h : ∀ t ∈ b.getLast?, SeqNum.order s.seq t.seq = .gt) : b.insert? s = some (b ++ [s]) := by
  unfold ReorderBuffer.insert?
  cases hrev : b.reverse with
  | nil =>
      rw [List.reverse_eq_nil_iff.mp hrev]
      rfl
  | cons last older =>
      obtain rfl : b = older.reverse ++ [last] := by
        rw [← List.reverse_reverse b, hrev, List.reverse_cons]
      simp [insertFromTail?, h last (by simp)]

/-- A packet that follows on the last one in the buffer goes to the tail. -/
theorem insert?_of_follows {b : ReorderBuffer} {s : Slot}
    (h : ∀ t ∈ b.getLast?, SeqNum.follows t.seq s.seq) : b.insert? s = some (b ++ [s]) := by
  apply insert?_of_after
  intro t ht
  have hnext := SeqNum.follows_iff.mp (h t ht)
  exact SeqNum.order_eq_gt_iff.mpr ⟨by omega, by unfold SeqNum.half; omega⟩

end RtpReassembly.ReorderBuffer
