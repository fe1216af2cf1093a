import RtpReassembly.Capture.Target

/-!
# Writing to any device

A device takes octets off the front of what it is given, all of them or some, or
it fails and takes none.  An interrupted write is tried again, so it is not seen
here.

* `Device.writeAll` gives a device octets until it has taken all of them;
* `Device.writeRecords` writes records up to the first that fails;
* `Target.device` is the device that a target is, and `Target.writeRecord_eq`
  says that records are written to it in the same way.
-/

namespace RtpReassembly.Capture

/-- A device whose states are of type `σ`. -/
structure Device (σ : Type) where
  /-- What the device has taken. -/
  taken : σ → Bytes
  /-- One write: how many octets the device takes, or why it takes none. -/
  write : σ → Bytes → σ × Except String Nat
  taken_of_ok : ∀ {s s' : σ} {b : Bytes} {n : Nat},
    write s b = (s', .ok n) → n ≤ b.length ∧ taken s' = taken s ++ b.take n
  taken_of_error : ∀ {s s' : σ} {b : Bytes} {reason : String},
    write s b = (s', .error reason) → taken s' = taken s

/-- What comes of writing records. -/
structure Written (σ : Type) where
  state : σ
  /-- The records before the first that failed. -/
  accepted : List Record
  /-- Why that one failed. -/
  failure : Option CaptureError
  deriving DecidableEq, Repr

namespace Device

variable {σ : Type} (d : Device σ)

/-- The reason of a device that takes no octet and does not fail. -/
def stuck : String := "failed to write whole buffer"

/-- Writes until all octets are taken. -/
def writeAll (s : σ) (b : Bytes) : σ × Except String Unit :=
  if _h : b = [] then (s, .ok ())
  else
    match d.write s b with
    | (s, .error reason) => (s, .error reason)
    | (s, .ok 0) => (s, .error stuck)
    | (s, .ok (n + 1)) => writeAll s (b.drop (n + 1))
termination_by b.length
decreasing_by
  have := List.length_pos_iff.mpr _h
  rw [List.length_drop]
  omega

@[simp] theorem writeAll_nil (s : σ) : d.writeAll s [] = (s, .ok ()) := by
  rw [writeAll, dif_pos rfl]

/-- Writes fields, up to the first that is not taken. -/
def writeFields (s : σ) : List Bytes → σ × Except CaptureError Unit
  | [] => (s, .ok ())
  | b :: rest =>
    match d.writeAll s b with
    | (s, .error reason) => (s, .error (.device reason))
    | (s, .ok ()) => writeFields s rest

/-- Writes a record, whose body must not be too large. -/
def writeRecord (s : σ) (r : Record) : σ × Except CaptureError Unit :=
  if maxBodyLength < r.body.length then (s, .error (.bodyTooLarge r.body.length))
  else d.writeFields s r.fields

/-- Writes records, up to the first that fails. -/
def writeRecords (s : σ) : List Record → Written σ
  | [] => { state := s, accepted := [], failure := none }
  | r :: rs =>
    match d.writeRecord s r with
    | (s, .error e) => { state := s, accepted := [], failure := some e }
    | (s, .ok ()) =>
      let rest := writeRecords s rs
      { rest with accepted := r :: rest.accepted }

end Device

namespace Target

/-- A write that is taken appends its octets and leaves the room as it was. -/
theorem written_of_write {t t' : Target} {b : Bytes} (h : t.write b = .ok t') :
    t' = { t with written := t.written ++ b } := by
  unfold write at h
  split at h
  · rename_i hempty
    obtain rfl := Except.ok.inj h
    simp [List.isEmpty_iff.mp hempty]
  · split at h
    · simp at h
    · exact (Except.ok.inj h).symm

/-- A target as a device that takes all or nothing. -/
def device : Device Target where
  taken := written
  write t b :=
    match t.write b with
    | .ok t' => (t', .ok b.length)
    | .error reason => (t, .error reason)
  taken_of_ok := by
    intro t t' b n h
    split at h
    · rename_i hwrite
      simp only [Prod.mk.injEq, Except.ok.injEq] at h
      obtain ⟨rfl, rfl⟩ := h
      simp [written_of_write hwrite]
    · simp at h
  taken_of_error := by
    intro t t' b reason h
    split at h
    · simp at h
    · exact congrArg written (Prod.mk.inj h).1.symm

/-- As a device, a target takes all octets of a write at once or none of them. -/
theorem writeAll_eq (t : Target) (b : Bytes) :
    device.writeAll t b =
      match t.write b with
      | .ok t' => (t', .ok ())
      | .error reason => (t, .error reason) := by
  cases b with
  | nil =>
      rw [Device.writeAll_nil]
      rfl
  | cons o b =>
      rw [Device.writeAll, dif_neg (List.cons_ne_nil o b)]
      cases hwrite : t.write (o :: b) with
      | error reason => simp [device, hwrite]
      -- all is taken at once, and there is nothing left to write
      | ok t' => simp [device, hwrite]

/-- Fields are written to a target as to the device that it is. -/
theorem writeFields_eq (t : Target) (fields : List Bytes) :
    device.writeFields t fields = t.writeFields fields := by
  induction fields generalizing t with
  | nil => rfl
  | cons b rest ih =>
      rw [Device.writeFields, writeFields, writeAll_eq]
      cases t.write b with
      | error reason => rfl
      | ok t' => exact ih t'

/-- A record is written to a target as to the device that it is. -/
theorem writeRecord_eq (t : Target) (r : Record) :
    device.writeRecord t r = t.writeRecord r := by
  rw [Device.writeRecord, writeRecord, writeFields_eq]

end Target

end RtpReassembly.Capture
