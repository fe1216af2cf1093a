import RtpReassembly.Proofs.Moves

/-!
# Taking in a stream in order

A stream that comes in order needs no reordering: besides the last number that
left, a window holds an open run of fragments, or nothing.  `Window.absorb`
takes the next packet into such a window, without a buffer to look through.

* `Ready.settles`: settling a buffer with the next packets of the stream, and
  any others behind a hole that is waited for, amounts to absorbing the former;
* `feed_absorb`: so feeding the next packet amounts to absorbing it.

Settling may discard several orphans at a time where absorbing discards one.
`Event.serial` makes events comparable: only those in which packets leave count,
and orphans leave one by one.
-/

namespace RtpReassembly

namespace Event

/-- What becomes of a packet at the head that is no fragment. -/
def ofWhole (f : Format) (s : Slot) : Event :=
  match assemble f [s] with
  | .emitted unit _ _ => .emitted unit s []
  | .dropped cause _ => .dropped cause s
  | _ => .dropped .unsupported s

/-- What becomes of a complete run of fragments, which can always be rejoined. -/
def ofRun (f : Format) (start : Slot) (middles : List Slot) (stop : Slot) : Event :=
  let unit := (rejoin? f.codec start (middles ++ [stop])).getD []
  .emitted (f.unitAt stop.packet.timestamp (Avcc.record unit)) start (middles ++ [stop])

/-- An event in which packets leave, with orphans one by one. -/
def serial : Event → List Event
  | .orphansDiscarded first others => (first :: others).map (.orphansDiscarded · [])
  | .stale _ _ | .classified _ | .duplicate _ | .orphanWaits _ => []
  | e => [e]

/-- A whole packet goes by itself. -/
@[simp] theorem serial_ofWhole (f : Format) (s : Slot) : (ofWhole f s).serial = [ofWhole f s] := by
  unfold ofWhole
  cases assemble f [s] <;> rfl

/-- A packet that is no fragment is never discarded as an orphan. -/
theorem ofWhole_ne_orphans {f : Format} {s first : Slot} {others : List Slot} :
    ofWhole f s ≠ .orphansDiscarded first others := by
  unfold ofWhole
  cases assemble f [s] <;> simp

@[simp] theorem serial_ofRun (f : Format) (start : Slot) (middles : List Slot) (stop : Slot) :
    (ofRun f start middles stop).serial = [ofRun f start middles stop] := rfl

@[simp] theorem slots_ofRun (f : Format) (start : Slot) (middles : List Slot) (stop : Slot) :
    (ofRun f start middles stop).slots = start :: (middles ++ [stop]) := rfl

/-- Exactly the packet leaves, whatever becomes of it. -/
@[simp] theorem slots_ofWhole (f : Format) (s : Slot) : (ofWhole f s).slots = [s] := by
  unfold ofWhole
  cases assemble f [s] <;> rfl

@[simp] theorem slots_orphansDiscarded (first : Slot) (others : List Slot) :
    (orphansDiscarded first others).slots = first :: others := rfl

@[simp] theorem slots_runAbandoned (fault : RunFault) (first : Slot) (others : List Slot)
    (next : Option SeqNum) : (runAbandoned fault first others next).slots = first :: others := rfl

/-- The same packets leave in the same order. -/
theorem slots_serial (e : Event) : e.serial.flatMap slots = e.slots := by
  cases e with
  | orphansDiscarded first others => simp [serial, slots, List.flatMap_map]
  | _ => simp [serial, slots]

end Event

namespace Window

/-- Takes a packet into a window whose buffer is empty. -/
def absorbFirst (f : Format) (consumed : Option SeqNum) (s : Slot) : Window × List Event :=
  match s.placement with
  | .fragmentStart => (⟨[s], consumed⟩, [])
  | .fragmentMiddle | .fragmentEnd => (⟨[], some s.seq⟩, [.orphansDiscarded s []])
  | _ => (⟨[], some s.seq⟩, [.ofWhole f s])

/-- Takes the next packet of a stream in, behind the open run in the buffer. -/
def absorb (f : Format) (w : Window) (s : Slot) : Window × List Event :=
  match w.buffer with
  | [] => absorbFirst f w.consumed s
  | start :: middles =>
    match s.placement with
    | .fragmentMiddle => (⟨start :: (middles ++ [s]), w.consumed⟩, [])
    | .fragmentEnd => (⟨[], some s.seq⟩, [.ofRun f start middles s])
    | _ =>
      let opened := absorbFirst f (some (lastSeq start middles)) s
      (opened.1, .runAbandoned .unterminated start middles (some s.seq) :: opened.2)

/-- Takes packets of a stream in, one after the other. -/
def absorbAll (f : Format) (w : Window) : List Slot → Window × List Event
  | [] => (w, [])
  | s :: rest =>
    let first := absorb f w s
    let last := absorbAll f first.1 rest
    (last.1, first.2 ++ last.2)

variable {p : Policy} {f : Format}

/-- Two stretches are absorbed one after the other. -/
theorem absorbAll_append (w : Window) (front back : List Slot) :
    absorbAll f w (front ++ back) =
      ((absorbAll f (absorbAll f w front).1 back).1,
        (absorbAll f w front).2 ++ (absorbAll f (absorbAll f w front).1 back).2) := by
  induction front generalizing w with
  | nil => simp [absorbAll]
  | cons s front ih => simp [absorbAll, ih, List.append_assoc]

/-- What leaves and what stays is what was there and what came. -/
theorem absorb_slots (w : Window) (s : Slot) :
    (absorb f w s).2.flatMap Event.slots ++ (absorb f w s).1.buffer = w.buffer ++ [s] := by
  obtain ⟨buffer, consumed⟩ := w
  cases buffer <;> cases hp : s.placement <;> simp [absorb, absorbFirst, hp]

/-- No packet is lost while a row is absorbed: each leaves or waits, in order. -/
theorem absorbAll_slots (w : Window) (row : List Slot) :
    (absorbAll f w row).2.flatMap Event.slots ++ (absorbAll f w row).1.buffer =
      w.buffer ++ row := by
  induction row generalizing w with
  | nil => simp [absorbAll]
  | cons s row ih =>
      simp only [absorbAll, List.flatMap_append, List.append_assoc]
      rw [ih, ← List.append_assoc, absorb_slots, List.append_assoc]
      rfl

/-- The last number that left is that of the last packet that left. -/
theorem absorb_consumed (w : Window) (s : Slot) :
    (absorb f w s).1.consumed =
      ((((absorb f w s).2.flatMap Event.slots).map Slot.seq).getLast?).or w.consumed := by
  obtain ⟨buffer, consumed⟩ := w
  cases buffer <;> cases hp : s.placement <;>
    simp [absorb, absorbFirst, hp, lastSeq, List.getLast?_cons]

/-- The last number consumed is that of the last packet that left. -/
theorem absorbAll_consumed (w : Window) (row : List Slot) :
    (absorbAll f w row).1.consumed =
      ((((absorbAll f w row).2.flatMap Event.slots).map Slot.seq).getLast?).or w.consumed := by
  induction row generalizing w with
  | nil => simp [absorbAll]
  | cons s row ih =>
      simp only [absorbAll, List.flatMap_append, List.map_append, List.getLast?_append]
      rw [ih, absorb_consumed, Option.or_assoc]

/-- A packet that is no fragment leaves at once. -/
theorem absorb_whole {s : Slot} (consumed : Option SeqNum) (h : ¬ s.placement.isFragment) :
    absorb f ⟨[], consumed⟩ s = (⟨[], some s.seq⟩, [.ofWhole f s]) := by
  cases hp : s.placement <;> simp_all [absorb, absorbFirst, Placement.isFragment]

/-- A start opens a run and waits. -/
theorem absorb_start {s : Slot} (consumed : Option SeqNum) (h : s.placement = .fragmentStart) :
    absorb f ⟨[], consumed⟩ s = (⟨[s], consumed⟩, []) := by
  simp [absorb, absorbFirst, h]

/-- A middle joins the run that is open. -/
theorem absorb_middle {start s : Slot} {middles : List Slot} (consumed : Option SeqNum)
    (h : s.placement = .fragmentMiddle) :
    absorb f ⟨start :: middles, consumed⟩ s = (⟨start :: (middles ++ [s]), consumed⟩, []) := by
  simp [absorb, h]

/-- An end completes the run that is open, and all of it leaves. -/
theorem absorb_end {start s : Slot} {middles : List Slot} (consumed : Option SeqNum)
    (h : s.placement = .fragmentEnd) :
    absorb f ⟨start :: middles, consumed⟩ s =
      (⟨[], some s.seq⟩, [.ofRun f start middles s]) := by
  simp [absorb, h]

/-- Continuations without a start are discarded one by one. -/
theorem absorbAll_orphans {head : Slot} {others : List Slot} (consumed : Option SeqNum)
    (h : ∀ s ∈ head :: others, s.placement.isContinuation) :
    absorbAll f ⟨[], consumed⟩ (head :: others) =
      (⟨[], some (lastSeq head others)⟩, (head :: others).map (Event.orphansDiscarded · [])) := by
  have hfirst : ∀ s consumed, s.placement.isContinuation →
      absorb f ⟨[], consumed⟩ s = (⟨[], some s.seq⟩, [.orphansDiscarded s []]) := by
    intro s consumed hs
    cases hp : s.placement <;> simp_all [absorb, absorbFirst, Placement.isContinuation]
  induction others generalizing head consumed with
  | nil => simp [absorbAll, hfirst head consumed (h head List.mem_cons_self)]
  | cons t others ih =>
      rw [absorbAll, hfirst head consumed (h head List.mem_cons_self)]
      simp only
      rw [ih _ (fun s hs => h s (List.mem_cons_of_mem _ hs))]
      simp

/-- Settling goes on after a turn that moved. -/
theorem settle_of_moved {w w' : Window} {es : List Event} (h : turn p f w = .moved w' es) :
    settle p f w = ((settle p f w').1, es ++ (settle p f w').2) := by
  rw [settle]
  split
  · rename_i hturn
    simp [h] at hturn
  · rename_i hturn
    rw [h] at hturn
    obtain ⟨rfl, rfl⟩ := Turn.moved.inj hturn
    rfl

/-- Settling ends with a turn that did not move. -/
theorem settle_of_settled {w w' : Window} {es : List Event} (h : turn p f w = .settled w' es) :
    settle p f w = (w', es) := by
  rw [settle]
  split
  · rename_i hturn
    rw [h] at hturn
    obtain ⟨rfl, rfl⟩ := Turn.settled.inj hturn
    rfl
  · rename_i hturn
    simp [h] at hturn

/-- A head before which no hole stands is served. -/
theorem turn_of_isNext {consumed : Option SeqNum} {head : Slot} {tail : List Slot}
    (next : IsNext consumed head) :
    turn p f ⟨head :: tail, consumed⟩ = serve p f consumed head tail := by
  have hpass : passHole? p consumed head.seq (tail.length + 1) = some (consumed, []) := by
    cases consumed with
    | none => rfl
    | some c => simp [passHole?, next c rfl]
  simp only [turn, hpass, List.nil_append]
  cases serve p f consumed head tail <;> rfl

/-- A hole before the head that is not lost is waited for. -/
theorem turn_of_hole {c : SeqNum} {b : ReorderBuffer}
    (hole : ∀ s ∈ b.head?, ¬ SeqNum.follows c s.seq) (short : b.length ≤ p.tolerance) :
    turn p f ⟨b, some c⟩ = .settled ⟨b, some c⟩ [] := by
  cases b with
  | nil => rfl
  | cons head tail =>
      have hnot := hole head rfl
      have hlost : p.isLost (tail.length + 1) = false := by
        simpa [Policy.isLost] using short
      simp [turn, passHole?, hnot, hlost]

/-- A head that is no fragment leaves. -/
theorem turn_whole {consumed : Option SeqNum} {s : Slot} (tail : List Slot)
    (next : IsNext consumed s) (hs : ¬ s.placement.isFragment) :
    turn p f ⟨s :: tail, consumed⟩ = .moved ⟨tail, some s.seq⟩ [.ofWhole f s] := by
  rw [turn_of_isNext next]
  unfold serve
  rw [if_neg (by cases hp : s.placement <;>
    simp_all [Placement.isFragment, Placement.isContinuation])]
  cases hp : s.placement with
  | single => simp [assemble, hp, Event.ofWhole]
  | unknown => simp [assemble, hp, Event.ofWhole]
  | aggregationStart | aggregationMember =>
      simp only [assemble, hp, Event.ofWhole, assembleAggregation]
      cases Aggregation.widenedLength? (s.body.drop f.codec.aggregationSkip) <;> simp
  | fragmentStart | fragmentMiddle | fragmentEnd => simp [hp, Placement.isFragment] at hs

/-- A continuation at the head whose start cannot come leaves with those that
go on with it. -/
theorem turn_orphans {c : SeqNum} {head : Slot} (tail : List Slot)
    (next : IsNext (some c) head) (allowed : p.discardOrphans)
    (orphan : head.placement.isContinuation) :
    ∃ others behind, tail = others ++ behind ∧ Contiguous (head :: others) ∧
      (∀ s ∈ others, s.placement.isContinuation) ∧
      turn p f ⟨head :: tail, some c⟩ =
        .moved ⟨behind, some (lastSeq head others)⟩ [.orphansDiscarded head others] := by
  obtain ⟨others, behind, hafter⟩ : ∃ others behind,
      orphansAfter head tail = (others, behind) := ⟨_, _, rfl⟩
  obtain ⟨htail, hcont, horphans⟩ := orphansAfter_orphans hafter
  refine ⟨others, behind, htail, hcont, horphans, ?_⟩
  rw [turn_of_isNext next]
  simp [serve, orphan, allowed, hafter]

section Run

variable {consumed : Option SeqNum} {start : Slot} {middles : List Slot}

/-- Serving an open run looks at the packet behind it. -/
theorem turn_run {behind : List Slot} {o : Outcome} (next : IsNext consumed start)
    (run : OpenRun start middles) (houtcome : RunOutcome f start middles behind o) :
    turn p f ⟨start :: (middles ++ behind), consumed⟩ =
      serve p f consumed start (middles ++ behind) ∧
    ¬ start.placement.isContinuation ∧ assemble f (start :: (middles ++ behind)) = o :=
  ⟨turn_of_isNext next, run.not_continuation, houtcome.assemble_eq run⟩

/-- An open run before a hole that is not lost waits. -/
theorem turn_run_waits {later : List Slot} (next : IsNext consumed start)
    (run : OpenRun start middles)
    (hole : ∀ s ∈ later.head?, ¬ SeqNum.follows (lastSeq start middles) s.seq)
    (short : later.length ≤ p.tolerance) :
    turn p f ⟨start :: (middles ++ later), consumed⟩ =
      .settled ⟨start :: (middles ++ later), consumed⟩ [] := by
  cases later with
  | nil =>
      obtain ⟨hturn, hstart, ho⟩ := turn_run (p := p) (f := f) next run .awaiting
      rw [hturn, serve, if_neg (fun h => hstart h.1), ho]
      rfl
  | cons s tail =>
      obtain ⟨hturn, hstart, ho⟩ := turn_run (p := p) (f := f) next run (.gap (hole s rfl))
      have hcount : (middles ++ s :: tail).length + 1 - (1 + middles.length) =
          (s :: tail).length := by
        simp only [List.length_append]
        omega
      have hlost : p.isLost (s :: tail).length = false := by
        simpa [Policy.isLost] using short
      rw [hturn, serve, if_neg (fun h => hstart h.1), ho]
      simp only [hcount, hlost, Bool.false_eq_true, if_false]

/-- A run that meets its end is complete. -/
theorem turn_run_ends {stop : Slot} (tail : List Slot) (next : IsNext consumed start)
    (run : OpenRun start middles) (hnext : SeqNum.follows (lastSeq start middles) stop.seq)
    (hstop : stop.placement = .fragmentEnd)
    (hclass : ∀ s ∈ start :: (middles ++ [stop]), s.Classified f.codec) :
    turn p f ⟨start :: (middles ++ stop :: tail), consumed⟩ =
      .moved ⟨tail, some stop.seq⟩ [.ofRun f start middles stop] := by
  obtain ⟨unit, hjoin⟩ := run.exists_rejoin? hstop hclass
  obtain ⟨hturn, hstart, ho⟩ := turn_run (p := p) next run
    (@RunOutcome.complete f start middles stop tail unit hnext hstop hjoin)
  have hsplit : middles ++ stop :: tail = (middles ++ [stop]) ++ tail := by simp
  have hused : 2 + middles.length - 1 = (middles ++ [stop]).length := by
    rw [List.length_append, List.length_singleton]
    omega
  rw [hturn, serve, if_neg (fun h => hstart h.1), ho]
  simp only [hsplit, hused, List.drop_left, List.take_left, Event.ofRun, hjoin, Option.getD_some]

/-- A run that meets another packet is given up. -/
theorem turn_run_broken {s : Slot} (tail : List Slot) (next : IsNext consumed start)
    (run : OpenRun start middles) (hnext : SeqNum.follows (lastSeq start middles) s.seq)
    (hother : ¬ s.placement.isContinuation) :
    turn p f ⟨start :: (middles ++ s :: tail), consumed⟩ =
      .moved ⟨s :: tail, some (lastSeq start middles)⟩
        [.runAbandoned .unterminated start middles (some s.seq)] := by
  obtain ⟨hturn, hstart, ho⟩ := turn_run (p := p) next run
    (@RunOutcome.broken f start middles s tail hnext hother)
  rw [hturn, serve, if_neg (fun h => hstart h.1), ho]
  simp [abandonRun, consumedWithHole, hnext]

end Run

/-- The last number that left and those of the packets after it, as far as they
have come in without a hole. -/
def row (w : Window) (fresh : List Slot) : List SeqNum :=
  w.consumed.toList ++ (w.buffer ++ fresh).map Slot.seq

/-- The buffer is empty or holds an open run. -/
def IsOpen (w : Window) : Prop :=
  ∀ start middles, w.buffer = start :: middles → OpenRun start middles

/-- A window before the next packets `fresh` of a stream, and others that came
too early. -/
structure Ready (f : Format) (w : Window) (fresh later : List Slot) : Prop where
  isOpen : w.IsOpen
  consecutive : SeqNum.Consecutive (w.row fresh)
  /-- A stream does not open with a continuation. -/
  opening : w.consumed = none → ∃ s ∈ (w.buffer ++ fresh).head?, ¬ s.placement.isContinuation
  hole : ∀ c ∈ (w.row fresh).getLast?, ∀ s ∈ later.head?, ¬ SeqNum.follows c s.seq
  classified : ∀ s ∈ w.buffer ++ fresh, s.Classified f.codec

variable {w w' : Window} {fresh fresh' later : List Slot}

/-- Packets leave from the front of the row. -/
theorem Ready.leave (h : Ready f w fresh later) (hopen : w'.IsOpen)
    (hsome : w'.consumed.isSome) (hrow : w'.row fresh' <:+ w.row fresh)
    (hsub : w'.buffer ++ fresh' ⊆ w.buffer ++ fresh) : Ready f w' fresh' later := by
  refine ⟨hopen, h.consecutive.suffix hrow, ?_, ?_, fun s hs => h.classified s (hsub hs)⟩
  · intro hnone
    simp [hnone] at hsome
  · obtain ⟨c, hc⟩ := Option.isSome_iff_exists.mp hsome
    have hne : w'.row fresh' ≠ [] := by simp [row, hc]
    obtain ⟨front, hfront⟩ := hrow
    have hlast : (w.row fresh).getLast? = (w'.row fresh').getLast? := by
      rw [← hfront, List.getLast?_append_of_ne_nil _ hne]
    rw [← hlast]
    exact h.hole

/-- The next packet comes to the buffer. -/
theorem Ready.enter {s : Slot} (h : Ready f w (s :: fresh) later)
    (hopen : IsOpen ⟨w.buffer ++ [s], w.consumed⟩) :
    Ready f ⟨w.buffer ++ [s], w.consumed⟩ fresh later := by
  have heq : w.buffer ++ [s] ++ fresh = w.buffer ++ s :: fresh := by simp
  exact ⟨hopen, by simpa [row] using h.consecutive, by simpa only [heq] using h.opening,
    by simpa [row] using h.hole, by simpa only [heq] using h.classified⟩

/-- A row that left is remembered by its last number. -/
theorem lastSeq_suffix (first : Slot) (others rest : List Slot) :
    lastSeq first others :: rest.map Slot.seq <:+ (first :: (others ++ rest)).map Slot.seq := by
  induction others generalizing first with
  | nil => exact List.suffix_refl _
  | cons s others ih =>
      rw [lastSeq_cons]
      exact (ih s).trans (List.suffix_cons _ _)

/-- A contiguous row does not reach over a hole. -/
theorem append_of_hole {head : Slot} {others behind : List Slot}
    (heq : fresh ++ later = others ++ behind) (hcont : Contiguous (head :: others))
    (hole : ∀ s ∈ later.head?, ¬ SeqNum.follows (lastSeq head fresh) s.seq) :
    ∃ rest, fresh = others ++ rest ∧ behind = rest ++ later := by
  rcases List.append_eq_append_iff.mp heq with ⟨extra, rfl, rfl⟩ | hshort
  · cases extra with
    | nil => exact ⟨[], by simp, by simp⟩
    | cons s extra =>
        have hnext := (@contiguous_append head fresh (s :: extra)).mp hcont
        exact absurd (hnext.2.2 s rfl) (hole s rfl)
  · exact hshort

theorem isOpen_nil {consumed : Option SeqNum} : IsOpen ⟨[], consumed⟩ := by
  intro start middles hb
  simp at hb

/-- A start by itself is an open run. -/
theorem isOpen_singleton {s : Slot} {consumed : Option SeqNum}
    (h : s.placement = .fragmentStart) : IsOpen ⟨[s], consumed⟩ := by
  intro start middles hb
  obtain ⟨rfl, rfl⟩ := List.cons.inj hb
  exact ⟨h, by simp, contiguous_singleton _⟩

/-- No hole stands before the first packet. -/
theorem Ready.isNext {s : Slot} {rest : List Slot} (h : Ready f w fresh later)
    (hrest : w.buffer ++ fresh = s :: rest) : IsNext w.consumed s := by
  intro c hc
  have hrow := h.consecutive
  rw [row, hrest, Option.mem_def.mp hc] at hrow
  exact (SeqNum.consecutive_cons_cons.mp hrow).1

/-- A stream goes on behind an open run. -/
theorem Ready.follows {start s : Slot} {middles : List Slot}
    (h : Ready f w (s :: fresh) later) (hb : w.buffer = start :: middles) :
    SeqNum.follows (lastSeq start middles) s.seq := by
  have hcont : Contiguous (start :: middles ++ s :: fresh) :=
    hb ▸ h.consecutive.suffix (List.suffix_append _ _)
  exact (contiguous_append.mp hcont).2.2 s rfl

/-- What an open run leaves when it is given up. -/
theorem Ready.abandon {start : Slot} {middles : List Slot} (h : Ready f w fresh later)
    (hb : w.buffer = start :: middles) :
    Ready f ⟨[], some (lastSeq start middles)⟩ fresh later := by
  refine h.leave isOpen_nil rfl ?_ (List.subset_append_right _ _)
  rw [row, row, hb]
  exact (lastSeq_suffix start middles fresh).trans (List.suffix_append _ _)

/-- The window stays ready when an empty buffer takes in the first fresh packet.
-/
theorem Ready.absorbFirst {s : Slot} {consumed : Option SeqNum}
    (h : Ready f ⟨[], consumed⟩ (s :: fresh) later) :
    Ready f (absorbFirst f consumed s).1 fresh later := by
  by_cases hstart : s.placement = .fragmentStart
  · have hfirst : Window.absorbFirst f consumed s = (⟨[s], consumed⟩, []) := by
      simp [Window.absorbFirst, hstart]
    rw [hfirst]
    exact h.enter (isOpen_singleton hstart)
  · have hfirst : (Window.absorbFirst f consumed s).1 = ⟨[], some s.seq⟩ := by
      cases hp : s.placement <;> simp_all [Window.absorbFirst]
    rw [hfirst]
    exact h.leave isOpen_nil rfl (by simp [row]) (by simp)

/-- **Absorbing** the first of the packets makes ready for the next. -/
theorem Ready.absorb {s : Slot} (h : Ready f w (s :: fresh) later) :
    Ready f (absorb f w s).1 fresh later := by
  obtain ⟨buffer, consumed⟩ := w
  cases buffer with
  | nil => exact h.absorbFirst
  | cons start middles =>
      have run := h.isOpen start middles rfl
      cases hp : s.placement with
      | fragmentMiddle =>
          rw [absorb_middle consumed hp]
          apply h.enter
          intro start' middles' hb
          obtain ⟨rfl, rfl⟩ := List.cons.inj hb
          refine ⟨run.start, ?_, ?_⟩
          · intro t ht
            rcases List.mem_append.mp ht with ht | ht
            · exact run.middles t ht
            · exact (List.mem_singleton.mp ht) ▸ hp
          · exact contiguous_append.mpr
              ⟨run.contiguous, contiguous_singleton s, by simpa using h.follows rfl⟩
      | fragmentEnd =>
          rw [absorb_end consumed hp]
          refine h.leave isOpen_nil rfl ⟨consumed.toList ++ (start :: middles).map Slot.seq, ?_⟩ ?_
          · simp [row]
          · exact List.Subset.trans (List.subset_cons_self s fresh)
              (List.subset_append_right (start :: middles) (s :: fresh))
      | single | aggregationStart | aggregationMember | fragmentStart | unknown =>
          simp only [Window.absorb, hp]
          exact (h.abandon rfl).absorbFirst

/-- The window stays ready behind any number of fresh packets. -/
theorem Ready.absorbAll {front back : List Slot} (h : Ready f w (front ++ back) later) :
    Ready f (absorbAll f w front).1 back later := by
  induction front generalizing w with
  | nil => exact h
  | cons s front ih => exact ih h.absorb

/-- What is ready for packets is ready for the first of them. -/
theorem Ready.first {s : Slot} (h : Ready f w (s :: fresh) later) : Ready f w [s] [] := by
  refine ⟨h.isOpen, ?_, ?_, by simp, ?_⟩
  · have hrow : w.row (s :: fresh) = w.row [s] ++ fresh.map Slot.seq := by simp [row]
    have hconsecutive := h.consecutive
    rw [hrow, SeqNum.consecutive_append] at hconsecutive
    exact hconsecutive.1
  · intro hnone
    obtain ⟨t, ht, hnot⟩ := h.opening hnone
    refine ⟨t, ?_, hnot⟩
    cases hb : w.buffer <;> simpa [hb] using ht
  · intro t ht
    apply h.classified t
    rcases List.mem_append.mp ht with ht | ht
    · exact List.mem_append_left _ ht
    · exact List.mem_append_right _ (List.mem_singleton.mp ht ▸ List.mem_cons_self)

/-- Settling absorbs the fresh packets. -/
def Settles (p : Policy) (f : Format) (w : Window) (fresh later : List Slot) : Prop :=
  (settle p f ⟨w.buffer ++ (fresh ++ later), w.consumed⟩).1 =
      ⟨(absorbAll f w fresh).1.buffer ++ later, (absorbAll f w fresh).1.consumed⟩ ∧
    (settle p f ⟨w.buffer ++ (fresh ++ later), w.consumed⟩).2.flatMap Event.serial =
      (absorbAll f w fresh).2

/-- Settling absorbs what a turn lets go, and then the others. -/
theorem Settles.of_moved {es : List Event} (h : Settles p f w' fresh' later)
    (hturn : turn p f ⟨w.buffer ++ (fresh ++ later), w.consumed⟩ =
      .moved ⟨w'.buffer ++ (fresh' ++ later), w'.consumed⟩ es)
    (habsorb : absorbAll f w fresh =
      ((absorbAll f w' fresh').1, es.flatMap Event.serial ++ (absorbAll f w' fresh').2)) :
    Settles p f w fresh later := by
  unfold Settles
  rw [settle_of_moved hturn, habsorb, List.flatMap_append, h.2]
  exact ⟨h.1, rfl⟩

/-- Settling absorbs what only comes to the buffer. -/
theorem Settles.of_entered {s : Slot} (h : Settles p f ⟨w.buffer ++ [s], w.consumed⟩ fresh later)
    (habsorb : absorb f w s = (⟨w.buffer ++ [s], w.consumed⟩, [])) :
    Settles p f w (s :: fresh) later := by
  have heq : w.buffer ++ [s] ++ (fresh ++ later) = w.buffer ++ (s :: fresh ++ later) := by simp
  unfold Settles at h ⊢
  rw [absorbAll, habsorb, ← heq]
  exact h

/-- Nothing goes before a hole. -/
theorem Ready.settles_nil (h : Ready f w [] later) (short : later.length ≤ p.tolerance) :
    Settles p f w [] later := by
  obtain ⟨buffer, consumed⟩ := w
  have hole := h.hole
  unfold Settles
  rw [List.nil_append]
  cases buffer with
  | nil =>
      cases consumed with
      | none =>
          obtain ⟨s, hs, -⟩ := h.opening rfl
          simp at hs
      | some c =>
          have hturn := turn_of_hole (p := p) (f := f) (hole c rfl) short
          rw [List.nil_append, settle_of_settled hturn]
          exact ⟨rfl, rfl⟩
  | cons start middles =>
      have hlast : (row ⟨start :: middles, consumed⟩ []).getLast? =
          some (lastSeq start middles) := by
        rw [row, List.getLast?_append_of_ne_nil _ (by simp), List.append_nil, getLast?_seqs]
      have hturn := turn_run_waits (f := f) (h.isNext rfl) (h.isOpen start middles rfl)
        (hole _ hlast) short
      rw [List.cons_append, settle_of_settled hturn]
      exact ⟨rfl, rfl⟩

/-- Behind an empty buffer a packet that continues none is absorbed alone. -/
theorem Ready.settles_first {s : Slot} {consumed : Option SeqNum}
    (h : Ready f ⟨[], consumed⟩ (s :: fresh) later) (hs : ¬ s.placement.isContinuation)
    (hrest : Settles p f (Window.absorb f ⟨[], consumed⟩ s).1 fresh later) :
    Settles p f ⟨[], consumed⟩ (s :: fresh) later := by
  by_cases hstart : s.placement = .fragmentStart
  · have habsorb := absorb_start (f := f) consumed hstart
    rw [habsorb] at hrest
    exact .of_entered hrest habsorb
  · have hfrag : ¬ s.placement.isFragment := by
      cases hp : s.placement <;> simp_all [Placement.isFragment, Placement.isContinuation]
    have hturn := turn_whole (p := p) (f := f) (fresh ++ later) (h.isNext rfl) hfrag
    have habsorb := absorb_whole (f := f) consumed hfrag
    rw [habsorb] at hrest
    exact .of_moved hrest hturn (by simp [Window.absorbAll, habsorb])

/-- Behind an open run any packet is absorbed alone. -/
theorem Ready.settles_run {start s : Slot} {middles : List Slot} {consumed : Option SeqNum}
    (h : Ready f ⟨start :: middles, consumed⟩ (s :: fresh) later)
    (hrest : Settles p f (Window.absorb f ⟨start :: middles, consumed⟩ s).1 fresh later) :
    Settles p f ⟨start :: middles, consumed⟩ (s :: fresh) later := by
  have run := h.isOpen start middles rfl
  have hfollows := h.follows rfl
  cases hp : s.placement with
  | fragmentMiddle =>
      have habsorb := @absorb_middle f start s middles consumed hp
      rw [habsorb] at hrest
      exact .of_entered hrest habsorb
  | fragmentEnd =>
      have hclass : ∀ t ∈ start :: (middles ++ [s]), t.Classified f.codec := by
        intro t ht
        apply h.classified t
        simp only [List.mem_cons, List.mem_append] at ht ⊢
        grind
      have hturn := turn_run_ends (p := p) (f := f) (fresh ++ later) (h.isNext rfl) run
        hfollows hp hclass
      have habsorb := @absorb_end f start s middles consumed hp
      rw [habsorb] at hrest
      exact .of_moved hrest hturn (by simp [Window.absorbAll, habsorb])
  | single | aggregationStart | aggregationMember | fragmentStart | unknown =>
      have hother : ¬ s.placement.isContinuation := by
        simp [hp, Placement.isContinuation]
      have hturn := turn_run_broken (p := p) (f := f) (fresh ++ later) (h.isNext rfl) run
        hfollows hother
      have habsorb : Window.absorb f ⟨start :: middles, consumed⟩ s =
          ((Window.absorb f ⟨[], some (lastSeq start middles)⟩ s).1,
            .runAbandoned .unterminated start middles (some s.seq) ::
              (Window.absorb f ⟨[], some (lastSeq start middles)⟩ s).2) := by
        simp [Window.absorb, hp]
      rw [habsorb] at hrest
      refine .of_moved ((h.abandon rfl).settles_first hother hrest) hturn ?_
      simp [Window.absorbAll, habsorb, Event.serial]

/-- Orphans are absorbed in a row. -/
theorem Ready.settles_orphans {c : SeqNum} {s : Slot}
    (h : Ready f ⟨[], some c⟩ (s :: fresh) later) (hs : s.placement.isContinuation)
    (allowed : p.discardOrphans)
    (hrest : ∀ others rest, fresh = others ++ rest →
      Settles p f (Window.absorbAll f ⟨[], some c⟩ (s :: others)).1 rest later) :
    Settles p f ⟨[], some c⟩ (s :: fresh) later := by
  obtain ⟨others, behind, heq, hcont, hothers, hturn⟩ := turn_orphans (p := p) (f := f)
    (fresh ++ later) (h.isNext rfl) allowed hs
  have hole : ∀ t ∈ later.head?, ¬ SeqNum.follows (lastSeq s fresh) t.seq := by
    apply h.hole (lastSeq s fresh)
    rw [row, List.getLast?_append_of_ne_nil _ (by simp), List.nil_append, getLast?_seqs]
    rfl
  obtain ⟨rest, rfl, rfl⟩ := append_of_hole heq hcont hole
  have habsorb := absorbAll_orphans (f := f) (some c) (List.forall_mem_cons.mpr ⟨hs, hothers⟩)
  have hsettles := hrest others rest rfl
  rw [habsorb] at hsettles
  have hall : Window.absorbAll f ⟨[], some c⟩ (s :: (others ++ rest)) =
      ((Window.absorbAll f ⟨[], some (lastSeq s others)⟩ rest).1,
        (s :: others).map (Event.orphansDiscarded · []) ++
          (Window.absorbAll f ⟨[], some (lastSeq s others)⟩ rest).2) := by
    rw [← List.cons_append, absorbAll_append, habsorb]
  exact .of_moved hsettles hturn (by simpa [Event.serial] using hall)

/-- **Settling a stream that comes in order.**  Whatever of it is there is
absorbed, and what came too early stays behind its hole. -/
theorem Ready.settles (h : Ready f w fresh later) (short : later.length ≤ p.tolerance)
    (allowed : ∀ s, .orphansDiscarded s [] ∈ (Window.absorbAll f w fresh).2 →
      p.discardOrphans) :
    Settles p f w fresh later := by
  induction hn : fresh.length using Nat.strong_induction_on generalizing w fresh with
  | _ n ih =>
  subst hn
  cases fresh with
  | nil => exact h.settles_nil short
  | cons s fresh =>
      have hrest : ∀ others rest, s :: fresh = s :: others ++ rest →
          Settles p f (Window.absorbAll f w (s :: others)).1 rest later := by
        intro others rest heq
        refine ih _ ?_ (heq ▸ h).absorbAll ?_ rfl
        · rw [heq]
          simp only [List.length_append, List.length_cons]
          omega
        · intro t ht
          apply allowed t
          rw [heq, absorbAll_append]
          exact List.mem_append_right _ ht
      have hnext : Settles p f (Window.absorb f w s).1 fresh later := hrest [] fresh rfl
      obtain ⟨buffer, consumed⟩ := w
      cases buffer with
      | cons start middles => exact h.settles_run hnext
      | nil =>
          by_cases horphan : s.placement.isContinuation
          · obtain ⟨c, rfl⟩ : ∃ c, consumed = some c := by
              apply Option.ne_none_iff_exists'.mp
              intro hnone
              obtain ⟨t, ht, hnot⟩ := h.opening hnone
              obtain rfl := Option.some.inj ht
              exact hnot horphan
            have hallowed : p.discardOrphans := by
              refine allowed s (List.mem_append_left _ ?_)
              cases hp : s.placement <;>
                simp_all [Window.absorb, Window.absorbFirst, Placement.isContinuation]
            apply h.settles_orphans horphan hallowed
            intro others rest heq
            exact hrest others rest (by rw [heq, List.cons_append])
          · exact h.settles_first horphan hnext

/-- A buffer that is not over capacity is left alone. -/
theorem trim_of_length_le {w : Window} (h : w.buffer.length ≤ p.capacity) :
    trim p f w = (w, []) := by
  rw [trim]
  split
  · rfl
  · rename_i head tail hb
    rw [hb] at h
    rw [if_neg (by simpa using h)]

/-- The oldest packet of a buffer over capacity leaves. -/
theorem trim_of_lt {head : Slot} {tail : List Slot} {consumed : Option SeqNum}
    (h : p.capacity < tail.length + 1) :
    trim p f ⟨head :: tail, consumed⟩ =
      ((trim p f (settle p f ⟨tail, some head.seq⟩).1).1,
        .evicted head :: (settle p f ⟨tail, some head.seq⟩).2 ++
          (trim p f (settle p f ⟨tail, some head.seq⟩).1).2) := by
  rw [trim]
  simp [h]

/-- **Feeding a stream that comes in order.**  A window takes the next packet
in by absorbing it. -/
theorem feed_absorb {packet : Rtp.Packet} {s : Slot} (hs : s = Slot.ofPacket f.codec packet)
    (h : Ready f w [s] []) (near : w.consumed.isSome → w.buffer.length + 1 < SeqNum.half)
    (room : (absorb f w s).1.buffer.length ≤ p.capacity)
    (allowed : ∀ t, .orphansDiscarded t [] ∈ (absorb f w s).2 → p.discardOrphans) :
    (feed p f w packet).1 = (absorb f w s).1 ∧
      (feed p f w packet).2.flatMap Event.serial = (absorb f w s).2 := by
  have hseq : s.seq = packet.seq := hs ▸ rfl
  have hstale : w.staleAfter? packet.seq = none := by
    unfold staleAfter?
    rw [Option.filter_eq_none_iff]
    intro c hc
    have hrow : w.row [s] = c :: (w.buffer ++ [s]).map Slot.seq := by simp [row, hc]
    have hahead : SeqNum.ahead s.seq c = (w.buffer.length + 1) % 2 ^ 16 :=
      SeqNum.Consecutive.ahead_getElem? (hrow ▸ h.consecutive) (Nat.zero_le _) rfl (by simp)
    have hnear := near (by simp [hc])
    have hgt : SeqNum.order packet.seq c = .gt := by
      rw [SeqNum.order_eq_gt_iff, ← hseq, hahead]
      unfold SeqNum.half at hnear ⊢
      omega
    simp [hgt]
  have hinsert : w.buffer.insert? s = some (w.buffer ++ [s]) := by
    refine ReorderBuffer.insert?_of_follows ?_
    intro t ht
    have hcont : SeqNum.Consecutive ((w.buffer ++ [s]).map Slot.seq) :=
      h.consecutive.suffix (List.suffix_append _ _)
    rw [List.map_append, SeqNum.consecutive_append, List.getLast?_map, ht] at hcont
    exact hcont.2.2 t.seq rfl s.seq rfl
  obtain ⟨hwindow, hevents⟩ :=
    h.settles (p := p) (Nat.zero_le _) (by simpa [absorbAll] using allowed)
  simp only [absorbAll, List.append_nil] at hwindow hevents
  have htrim := trim_of_length_le (p := p) (f := f) room
  simp only [feed, hstale, ← hs, hinsert, hwindow, htrim, List.append_nil, List.flatMap_cons]
  exact ⟨trivial, by simpa [Event.serial] using hevents⟩

/-- A stream may open with any packet that is no fragment; then a number has
left. -/
theorem feed_empty_whole {packet : Rtp.Packet}
    (h : ¬ (Placement.ofBody f.codec packet.body).isFragment) :
    (feed p f {} packet).1 = ⟨[], some packet.seq⟩ := by
  have hs : ¬ (Slot.ofPacket f.codec packet).placement.isFragment := h
  have habsorb := absorb_whole (f := f) none hs
  have hready : Ready f {} [Slot.ofPacket f.codec packet] [] := by
    refine ⟨isOpen_nil, List.isChain_singleton _, ?_, by simp, ?_⟩
    · intro _
      refine ⟨_, rfl, fun horphan => hs ?_⟩
      cases hp : (Slot.ofPacket f.codec packet).placement <;>
        simp_all [Placement.isContinuation, Placement.isFragment]
    · simp [Slot.classified_ofPacket]
  have hfeed := feed_absorb (p := p) rfl hready (by simp)
    (by rw [habsorb]; exact Nat.zero_le _)
    (by rw [habsorb]; simp [Event.ofWhole_ne_orphans.symm])
  rw [habsorb] at hfeed
  exact hfeed.1

end Window

end RtpReassembly
