import RtpReassembly.Proofs.Insertion
import Mathlib.Data.List.Perm.Basic

/-!
# The buffer as a sorted map

While all numbers that a buffer was given since it was last empty come from one
half circle, it is a map from numbers to packets, sorted by the distance from the
start of that half circle.  The half circle need not be known: taking packets off
the head leaves what is sorted sorted, and an empty buffer may begin another one.

* `Op` are the operations on a buffer, `apply` and `applyAll` what they make of it;
* `sortedFrom_apply`, `sortedFrom_applyAll`: an operation keeps the order, and so
  does a run of them;
* `mem_insertAll`, `SortedFrom.ext`: what is in a buffer after insertions, and that
  nothing else than its packets decides how it is arranged;
* `sorted_map` has all of it.
-/

namespace RtpReassembly.ReorderBuffer

/-- An operation on a buffer. -/
inductive Op
  | insert (s : Slot)
  | popHead
  | removeFirst (n : Nat)
  | clear
  deriving DecidableEq, Repr

/-- The buffer after an operation.  A packet that is refused changes nothing. -/
def apply (b : ReorderBuffer) : Op → ReorderBuffer
  | .insert s => (b.insert? s).getD b
  | .popHead => b.tail
  | .removeFirst n => b.drop n
  | .clear => []

/-- The buffer after operations one by one. -/
def applyAll (b : ReorderBuffer) (ops : List Op) : ReorderBuffer :=
  ops.foldl apply b

/-- The buffer after packets were put in one by one. -/
def insertAll (b : ReorderBuffer) (slots : List Slot) : ReorderBuffer :=
  b.applyAll (slots.map .insert)

/-- Every number that is put in lies on the half circle in front of `r`. -/
def Near (r : SeqNum) (ops : List Op) : Prop :=
  ∀ s, Op.insert s ∈ ops → SeqNum.ahead s.seq r < SeqNum.half

theorem applyAll_append (b : ReorderBuffer) (ops more : List Op) :
    b.applyAll (ops ++ more) = (b.applyAll ops).applyAll more :=
  List.foldl_append

theorem insertAll_cons (b : ReorderBuffer) (s : Slot) (slots : List Slot) :
    b.insertAll (s :: slots) = (b.apply (.insert s)).insertAll slots := rfl

variable {r : SeqNum} {b : ReorderBuffer}

/-! ## Order -/

theorem sortedFrom_nil : SortedFrom r SeqNum.half [] :=
  ⟨.nil, by simp⟩

/-- What is left when packets are taken off is still sorted. -/
theorem SortedFrom.sublist {b' : ReorderBuffer} (h : b.SortedFrom r SeqNum.half)
    (hsub : b'.Sublist b) : b'.SortedFrom r SeqNum.half :=
  ⟨h.1.sublist hsub, fun s hs => h.2 s (hsub.subset hs)⟩

/-- **One operation** keeps a buffer sorted. -/
theorem sortedFrom_apply (h : b.SortedFrom r SeqNum.half) {op : Op}
    (near : ∀ s, op = .insert s → SeqNum.ahead s.seq r < SeqNum.half) :
    (b.apply op).SortedFrom r SeqNum.half := by
  cases op with
  | insert s =>
      cases hins : b.insert? s with
      | none => simpa [apply, hins] using h
      | some b' => simpa [apply, hins] using h.insert? (near s rfl) hins
  | popHead => exact h.sublist (List.tail_sublist b)
  | removeFirst n => exact h.sublist (List.drop_sublist n b)
  | clear => exact sortedFrom_nil

/-- **A run of operations** keeps a buffer sorted. -/
theorem sortedFrom_applyAll (h : b.SortedFrom r SeqNum.half) {ops : List Op} (near : Near r ops) :
    (b.applyAll ops).SortedFrom r SeqNum.half := by
  induction ops generalizing b with
  | nil => exact h
  | cons op ops ih =>
      refine ih (sortedFrom_apply h ?_) fun s hs => near s (List.mem_cons_of_mem op hs)
      rintro s rfl
      exact near s List.mem_cons_self

/-! ## Contents -/

/-- **Refusal.**  A packet of the half circle is refused exactly if its number is there. -/
theorem SortedFrom.insert?_eq_none_iff {s : Slot} (h : b.SortedFrom r SeqNum.half)
    (hs : SeqNum.ahead s.seq r < SeqNum.half) : b.insert? s = none ↔ s.seq ∈ b.seqs := by
  rw [insert?_of_sorted h hs, seqs]
  split <;> simp_all

/-- A packet whose number is not there is put between the nearer and the farther ones. -/
theorem SortedFrom.insert?_of_not_mem {s : Slot} (h : b.SortedFrom r SeqNum.half)
    (hs : SeqNum.ahead s.seq r < SeqNum.half) (hnew : s.seq ∉ b.seqs) :
    ∃ older newer, b = older ++ newer ∧ b.insert? s = some (older ++ s :: newer) ∧
      (∀ t ∈ older, SeqNum.ahead t.seq r < SeqNum.ahead s.seq r) ∧
      ∀ t ∈ newer, SeqNum.ahead s.seq r < SeqNum.ahead t.seq r := by
  obtain ⟨b', hins⟩ := Option.ne_none_iff_exists'.mp fun hnone =>
    hnew ((h.insert?_eq_none_iff hs).mp hnone)
  obtain ⟨older, newer, rfl, rfl, -, -⟩ := insert?_eq_some hins
  have hsorted := List.pairwise_append.mp (h.insert? hs hins).1
  exact ⟨older, newer, rfl, hins, fun t ht => hsorted.2.2 t ht s List.mem_cons_self,
    (List.pairwise_cons.mp hsorted.2.1).1⟩

/-- A packet is in the buffer after it is put in, unless one with its number was
there. -/
theorem SortedFrom.mem_apply_insert {s t : Slot} (h : b.SortedFrom r SeqNum.half)
    (hs : SeqNum.ahead s.seq r < SeqNum.half) :
    t ∈ b.apply (.insert s) ↔ t ∈ b ∨ t = s ∧ s.seq ∉ b.seqs := by
  by_cases hmem : s.seq ∈ b.seqs
  · simp [apply, (h.insert?_eq_none_iff hs).mpr hmem, hmem]
  · obtain ⟨older, newer, rfl, hins, -, -⟩ := h.insert?_of_not_mem hs hmem
    simp [apply, hins, hmem, or_left_comm, or_comm]

/-- What is in a buffer after packets with different numbers were put in: all that was
there, and of the others those whose numbers were not. -/
theorem SortedFrom.mem_insertAll {slots : List Slot} {t : Slot} (h : b.SortedFrom r SeqNum.half)
    (near : ∀ s ∈ slots, SeqNum.ahead s.seq r < SeqNum.half)
    (distinct : (slots.map Slot.seq).Nodup) :
    t ∈ b.insertAll slots ↔ t ∈ b ∨ t ∈ slots ∧ t.seq ∉ b.seqs := by
  induction slots generalizing b with
  | nil => simp [insertAll, applyAll]
  | cons s slots ih =>
      obtain ⟨hs, hslots⟩ := List.forall_mem_cons.mp near
      obtain ⟨hfirst, hrest⟩ := List.nodup_cons.mp distinct
      have hnext : (b.apply (.insert s)).SortedFrom r SeqNum.half :=
        sortedFrom_apply h (by simpa using hs)
      have hseqs (q : SeqNum) :
          q ∈ (b.apply (.insert s)).seqs ↔ q ∈ b.seqs ∨ q = s.seq := by
        simp only [seqs, List.mem_map, h.mem_apply_insert hs]
        by_cases hmem : s.seq ∈ b.seqs <;> grind [seqs]
      rw [insertAll_cons, ih hnext hslots hrest, h.mem_apply_insert hs, hseqs]
      have hother : t ∈ slots → t.seq ≠ s.seq :=
        fun ht heq => hfirst (heq ▸ List.mem_map_of_mem ht)
      grind

/-- Sorted buffers with the same packets are the same. -/
theorem SortedFrom.ext {b' : ReorderBuffer} (h : b.SortedFrom r SeqNum.half)
    (h' : b'.SortedFrom r SeqNum.half) (hmem : ∀ s, s ∈ b ↔ s ∈ b') : b = b' := by
  have hnodup {c : ReorderBuffer} (hc : c.SortedFrom r SeqNum.half) : c.Nodup :=
    hc.1.imp fun {s t} hlt (heq : s = t) => Nat.lt_irrefl _ (heq ▸ hlt)
  have hperm := (List.perm_ext_iff_of_nodup (hnodup h) (hnodup h')).mpr hmem
  exact hperm.eq_of_pairwise (fun s t _ _ hst hts => absurd hst (Nat.lt_asymm hts)) h.1 h'.1

/-- **Order of arrival.**  Packets with different numbers arrange themselves in the same
way in whatever order they are put in. -/
theorem SortedFrom.insertAll_perm {slots slots' : List Slot} (h : b.SortedFrom r SeqNum.half)
    (hperm : slots.Perm slots') (near : ∀ s ∈ slots, SeqNum.ahead s.seq r < SeqNum.half)
    (distinct : (slots.map Slot.seq).Nodup) : b.insertAll slots = b.insertAll slots' := by
  have near' : ∀ s ∈ slots', SeqNum.ahead s.seq r < SeqNum.half :=
    fun s hs => near s (hperm.mem_iff.mpr hs)
  have hops {more : List Slot} (hmore : ∀ s ∈ more, SeqNum.ahead s.seq r < SeqNum.half) :
      Near r (more.map .insert) := by
    simpa [Near] using hmore
  refine (sortedFrom_applyAll h (hops near)).ext (sortedFrom_applyAll h (hops near')) fun s => ?_
  have distinct' := (hperm.map Slot.seq).nodup_iff.mp distinct
  exact (h.mem_insertAll near distinct).trans
    ((or_congr_right (and_congr_left' hperm.mem_iff)).trans (h.mem_insertAll near' distinct').symm)

/-- **A sorted map.**  Whatever was done to a buffer before it was last empty, while the
numbers put in since then lie on the half circle in front of `r` it is strictly
increasing in their distance from `r`.  A packet of the half circle is refused, and
nothing changes, exactly if its number is there; otherwise it goes between the nearer
and the farther packets, and nothing else changes.  Packets with different numbers
make the same buffer in whatever order they are put in. -/
theorem sorted_map {before since : List Op} (empty : applyAll [] before = [])
    (near : Near r since) (hb : b = applyAll [] (before ++ since)) :
    b.seqs.Pairwise (fun x y => SeqNum.ahead x r < SeqNum.ahead y r) ∧
    (∀ s, SeqNum.ahead s.seq r < SeqNum.half →
      (b.insert? s = none ↔ s.seq ∈ b.seqs) ∧
      (s.seq ∈ b.seqs → b.apply (.insert s) = b) ∧
      (s.seq ∉ b.seqs → ∃ older newer, b = older ++ newer ∧
        b.apply (.insert s) = older ++ s :: newer ∧
        (∀ t ∈ older, SeqNum.ahead t.seq r < SeqNum.ahead s.seq r) ∧
        ∀ t ∈ newer, SeqNum.ahead s.seq r < SeqNum.ahead t.seq r)) ∧
    ∀ slots slots', slots.Perm slots' → (slots.map Slot.seq).Nodup →
      (∀ s ∈ slots, SeqNum.ahead s.seq r < SeqNum.half) →
      b.insertAll slots = b.insertAll slots' := by
  have hsorted : b.SortedFrom r SeqNum.half := by
    rw [hb, applyAll_append, empty]
    exact sortedFrom_applyAll sortedFrom_nil near
  refine ⟨List.pairwise_map.mpr hsorted.1, fun s hs => ⟨hsorted.insert?_eq_none_iff hs, ?_, ?_⟩,
    fun slots slots' hperm distinct hnear => hsorted.insertAll_perm hperm hnear distinct⟩
  · intro hmem
    rw [apply, (hsorted.insert?_eq_none_iff hs).mpr hmem, Option.getD_none]
  · intro hnew
    obtain ⟨older, newer, hparts, hins, holder, hnewer⟩ := hsorted.insert?_of_not_mem hs hnew
    exact ⟨older, newer, hparts, by rw [apply, hins, Option.getD_some], holder, hnewer⟩

/-- A packet of another half circle came and went; then came five packets around the
wrap, of which one left and one is a copy with another body. -/
theorem sorted_map_around :
    ∃ (slot : SeqNum → Slot) (copy : Slot) (before since : List Op),
      slot = (fun q => Slot.ofPacket .h264 (.simple 96 true q 9000 1 [0x41, 0x9A])) ∧
      copy = Slot.ofPacket .h264 (.simple 96 true 0 9000 1 [0x41, 0x9B]) ∧
      before = [.insert (slot 40000), .popHead] ∧
      since = [.insert (slot 1), .insert (slot 65534), .insert (slot 0), .popHead,
        .insert copy, .insert (slot 65535)] ∧
      applyAll [] before = [] ∧ Near 65534 since ∧
      applyAll [] (before ++ since) = [slot 65535, slot 0, slot 1] ∧
      insert? [slot 65535, slot 0, slot 1] copy = none ∧
      insertAll [slot 65535, slot 0, slot 1] [slot 7, slot 65534, slot 3] =
        insertAll [slot 65535, slot 0, slot 1] [slot 3, slot 7, slot 65534] := by
  let slot : SeqNum → Slot :=
    fun q => Slot.ofPacket .h264 (.simple 96 true q 9000 1 [0x41, 0x9A])
  let copy := Slot.ofPacket .h264 (.simple 96 true 0 9000 1 [0x41, 0x9B])
  have hempty : applyAll [] [.insert (slot 40000), .popHead] = [] := by decide
  have hnear : Near 65534 [.insert (slot 1), .insert (slot 65534), .insert (slot 0), .popHead,
      .insert copy, .insert (slot 65535)] := by
    intro s hs
    simp only [List.mem_cons, Op.insert.injEq, reduceCtorEq, List.not_mem_nil, or_false,
      false_or] at hs
    rcases hs with rfl | rfl | rfl | rfl | rfl <;> decide
  obtain ⟨-, hinsert, horder⟩ := sorted_map (b := [slot 65535, slot 0, slot 1]) hempty hnear
    (by decide)
  exact ⟨slot, copy, _, _, rfl, rfl, rfl, rfl, hempty, hnear, by decide,
    (hinsert copy (by decide)).1.mpr (by decide),
    horder _ _ (by decide) (by decide) (by decide)⟩

end RtpReassembly.ReorderBuffer
