import RtpReassembly.Capture.Record

/-!
# Reading a capture

A source delivers its octets in pieces of any size, may interrupt a read, and
either ends or fails for good.  Reads go on over interruptions and pieces, so
only the octets and the ending can be seen in what is read:

* `Source.fill` reads a stated number of octets, or what there is before the
  end;
* `Source.next` reads a record, and `Source.readAll` all of them up to the
  first that is wrong.
-/

namespace RtpReassembly.Capture

/-- What a source does at one read. -/
inductive Delivery
  /-- It gives octets, as many of these as are asked for. -/
  | piece (octets : Bytes)
  /-- It is interrupted, and the read is to be tried again. -/
  | interrupted
  deriving DecidableEq, Repr

/-- What a source does when it has given all. -/
inductive Ending
  | stops
  | fails (reason : String)
  deriving DecidableEq, Repr

/-- A source of octets. -/
structure Source where
  deliveries : List Delivery
  ending : Ending := .stops
  deriving DecidableEq, Repr

/-- What comes of reading a stated number of octets. -/
structure Filled where
  octets : Bytes
  /-- The reason, if the source failed before it gave all. -/
  failure : Option String
  left : Source

namespace Source

/-- A source that gives everything at once. -/
def ofBytes (b : Bytes) : Source :=
  { deliveries := [.piece b] }

/-- The octets of deliveries. -/
def octetsOf : List Delivery → Bytes
  | [] => []
  | .piece b :: rest => b ++ octetsOf rest
  | .interrupted :: rest => octetsOf rest

/-- The octets that a source has still to give. -/
def octets (s : Source) : Bytes :=
  octetsOf s.deliveries

/-- Reads `n` octets from deliveries.  A read that gives nothing ends the
reading. -/
def fillFrom (ending : Ending) (n : Nat) : List Delivery → Filled
  | [] =>
    { octets := []
      failure :=
        match n, ending with
        | 0, _ => none
        | _, .stops => none
        | _, .fails reason => some reason
      left := { deliveries := [], ending } }
  | .interrupted :: rest =>
    if n = 0 then { octets := [], failure := none, left := { deliveries := .interrupted :: rest, ending } }
    else fillFrom ending n rest
  | .piece b :: rest =>
    if n = 0 then { octets := [], failure := none, left := { deliveries := .piece b :: rest, ending } }
    else if b.isEmpty then { octets := [], failure := none, left := { deliveries := rest, ending } }
    else
      match Bytes.splitExact? n b with
      | some (front, []) =>
        { octets := front, failure := none, left := { deliveries := rest, ending } }
      | some (front, back) =>
        { octets := front, failure := none, left := { deliveries := .piece back :: rest, ending } }
      | none =>
        let more := fillFrom ending (n - b.length) rest
        { more with octets := b ++ more.octets }

/-- Reads `n` octets, or what there is before the end. -/
def fill (n : Nat) (s : Source) : Filled :=
  fillFrom s.ending n s.deliveries

/-- What is read is what the source then lacks. -/
theorem octets_fillFrom (ending : Ending) (n : Nat) (ds : List Delivery) :
    (fillFrom ending n ds).octets ++ (fillFrom ending n ds).left.octets = octetsOf ds := by
  induction ds generalizing n with
  | nil => rfl
  | cons d rest ih =>
    cases d with
    | interrupted =>
      unfold fillFrom
      split
      · rfl
      · exact ih n
    | piece b =>
      unfold fillFrom
      split
      · rfl
      · split
        · rename_i hb
          simp only [List.isEmpty_iff] at hb
          simp [octetsOf, octets, hb]
        · split
          · rename_i hs
            obtain ⟨rfl, -⟩ := Bytes.splitExact?_eq_some_iff.mp hs
            simp [octetsOf, octets]
          · rename_i hs
            obtain ⟨rfl, -⟩ := Bytes.splitExact?_eq_some_iff.mp hs
            simp [octetsOf, octets]
          · simp only [octetsOf, List.append_assoc]
            rw [← ih (n - b.length)]

/-- No octet of a source is lost: those read and those left are all there were. -/
theorem octets_fill (n : Nat) (s : Source) :
    (s.fill n).octets ++ (s.fill n).left.octets = s.octets :=
  octets_fillFrom s.ending n s.deliveries

/-- Reads everything, or fails with the source's reason. -/
def readToEnd (s : Source) : Except String Bytes :=
  match s.ending with
  | .stops => .ok s.octets
  | .fails reason => .error reason

/-- Reads the body that belongs to a head. -/
def nextBody (h : Head) (s : Source) : Except CaptureError Record × Source :=
  match h.check with
  | .error e => (.error e, s)
  | .ok kind =>
    let body := s.fill h.length.toNat
    match body.failure with
    | some reason => (.error (.device reason), body.left)
    | none =>
      if body.octets.length < h.length.toNat then
        (.error (.truncated h.length.toNat body.octets.length), body.left)
      else (.ok { kind, captureMs := h.captureMs, body := body.octets }, body.left)

/-- Reads a record; none at a clean end. -/
def next (s : Source) : Option (Except CaptureError Record) × Source :=
  let head := s.fill headLength
  match head.failure with
  | some reason => (some (.error (.device reason)), head.left)
  | none =>
    if head.octets.isEmpty then (none, head.left)
    else
      match Head.ofBytes? head.octets with
      | none => (some (.error (.truncated headLength head.octets.length)), head.left)
      | some h =>
        let (result, left) := nextBody h head.left
        (some result, left)

/-- Reading a body adds no octets to a source. -/
theorem nextBody_length (h : Head) (s : Source) :
    (nextBody h s).2.octets.length ≤ s.octets.length := by
  have hf := congrArg List.length (octets_fill h.length.toNat s)
  rw [List.length_append] at hf
  unfold nextBody
  split
  · exact Nat.le_refl _
  · simp only
    split
    · simp only
      omega
    · split <;>
      · simp only
        omega

/-- A record takes octets off the source. -/
theorem next_length {s left : Source} {r : Except CaptureError Record}
    (hn : s.next = (some r, left)) (hr : r.isOk) : left.octets.length < s.octets.length := by
  have hf := congrArg List.length (octets_fill headLength s)
  rw [List.length_append] at hf
  unfold next at hn
  simp only at hn
  split at hn
  · injection hn with h _
    injection h with h
    subst h
    simp [Except.isOk, Except.toBool] at hr
  · split at hn
    · simp at hn
    · rename_i hne
      have hpos : 0 < (s.fill headLength).octets.length :=
        List.length_pos_iff.mpr (by simpa using hne)
      split at hn
      · injection hn with h _
        injection h with h
        subst h
        simp [Except.isOk, Except.toBool] at hr
      · rename_i h _
        have hb := nextBody_length h (s.fill headLength).left
        injection hn with _ hl
        rw [← hl]
        omega

/-- The records up to the end or to the first error, which is given too. -/
def readAll (s : Source) : List Record × Option CaptureError :=
  match _h : s.next with
  | (none, _) => ([], none)
  | (some (.error e), _) => ([], some e)
  | (some (.ok r), left) =>
    let (records, e) := readAll left
    (r :: records, e)
termination_by s.octets.length
decreasing_by exact next_length _h rfl

/-- The results of at most `limit` reads; reading goes on after an error. -/
def results (s : Source) : Nat → List (Except CaptureError Record)
  | 0 => []
  | limit + 1 =>
    match s.next with
    | (none, _) => []
    | (some r, left) => r :: results left limit

end Source

end RtpReassembly.Capture
