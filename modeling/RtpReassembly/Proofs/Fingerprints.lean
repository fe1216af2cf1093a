import RtpReassembly.Proofs.Routing

/-!
# What a fingerprint tells

A replay hashes its units as they are handed out, piece by piece, and over any number
of legs.  What is hashed in the end is one string, and this string tells the units:
no payload, whatever it holds, can be taken for the start of another unit.

* `Sha256.absorb_append`, `Sha256.Running.Took`: pieces are hashed like the whole;
* `addRecords_fingerprint`: what a replay hashes is what it hands out;
* `Fingerprint.encode_append_inj`: no unit is the start of another;
* `fingerprint_tells_units` is the main statement.
-/

namespace RtpReassembly

namespace Bytes

theorem be32_injective : Function.Injective be32 := by
  intro x y h
  simp only [be32, List.cons.injEq, and_true] at h
  obtain ⟨h₀, h₁, h₂, h₃⟩ := h
  rw [← word32_be32 x, h₀, h₁, h₂, h₃, word32_be32]

theorem be64_injective : Function.Injective be64 := by
  intro x y h
  obtain ⟨hhigh, hlow⟩ := List.append_inj h rfl
  rw [← word64_be64 x, be32_injective hhigh, be32_injective hlow, word64_be64]

end Bytes

namespace Sha256

/-- The first block is taken first. -/
theorem absorb_of_block (s : Words) {block : Bytes} (h : block.length = blockLength)
    (rest : Bytes) : absorb s (block ++ rest) = absorb (compress s block) rest := by
  have hsplit : Bytes.splitExact? blockLength (block ++ rest) = some (block, rest) :=
    Bytes.splitExact?_eq_some_iff.mpr ⟨rfl, h⟩
  rw [absorb]
  split
  · rename_i hread
    rw [hsplit] at hread
    obtain ⟨rfl, rfl⟩ := Prod.mk.inj (Option.some.inj hread)
    rfl
  · rename_i hread
    simp [hsplit] at hread

/-- What does not fill a block waits for what follows. -/
theorem absorb_append (s : Words) (b more : Bytes) :
    absorb s (b ++ more) = absorb (absorb s b).1 ((absorb s b).2 ++ more) := by
  fun_induction absorb s b with
  | case1 s b block rest hsplit ih =>
      obtain ⟨rfl, hlength⟩ := Bytes.splitExact?_eq_some_iff.mp hsplit
      rw [List.append_assoc, absorb_of_block s hlength, ih]
  | case2 s b hshort => rfl

namespace Running

/-- `Took r message`: a running hash has taken the octets of `message`. -/
structure Took (r : Running) (message : Bytes) : Prop where
  absorbed : absorb initial message = (r.words, r.pending)
  length : r.length = message.length

/-- A hash that has just begun has taken nothing. -/
theorem took_nothing : Took {} [] :=
  ⟨by rw [absorb]; rfl, rfl⟩

/-- What a running hash takes goes behind what it has taken, though it absorbs
only whole blocks of it. -/
theorem Took.update {r : Running} {message : Bytes} (h : r.Took message) (b : Bytes) :
    (r.update b).Took (message ++ b) where
  absorbed := by
    rw [absorb_append, h.absorbed]
    rfl
  length := by
    rw [List.length_append, ← h.length]
    rfl

/-- **A hash piece by piece** is the hash of the whole. -/
theorem Took.finish {r : Running} {message : Bytes} (h : r.Took message) :
    r.finish = digest message := by
  rw [Running.finish, digest, absorb_append initial message, h.absorbed, h.length]

end Running

/-- A message with a published hash. -/
example : Hex.ofBytes (digest (Utf8.encode "abc")) =
    "ba7816bf8f01cfea414140de5dae2223b00361a396177a9cb410ff61f20015ad" := by
  decide +kernel

end Sha256

namespace Fingerprint

theorem addAll_append (h : Sha256.Running) (us vs : List AccessUnit) :
    addAll h (us ++ vs) = addAll (addAll h us) vs :=
  List.foldl_append

/-- Adding units takes their encodings on end. -/
theorem took_addAll {h : Sha256.Running} {message : Bytes} (took : h.Took message)
    (units : List AccessUnit) : (addAll h units).Took (message ++ units.flatMap encode) := by
  induction units generalizing h message with
  | nil => simpa [addAll] using took
  | cons u units ih =>
      rw [List.flatMap_cons, ← List.append_assoc]
      exact ih (took.update (encode u))

/-- All codecs have names of the same length, and no two the same. -/
theorem encode_name_inj : ∀ {c d : Codec},
    (Utf8.encode c.name).length = (Utf8.encode d.name).length ∧
      (Utf8.encode c.name = Utf8.encode d.name → c = d) := by
  intro c d
  cases c <;> cases d <;> decide +kernel

/-- **No unit is the start of another**, whatever their payloads hold, because each
tells its length before its payload. -/
theorem encode_append_inj {u v : AccessUnit} {x y : Bytes} (hu : u.payload.length < 2 ^ 32)
    (hv : v.payload.length < 2 ^ 32) (h : encode u ++ x = encode v ++ y) : u = v ∧ x = y := by
  simp only [encode, List.append_assoc] at h
  obtain ⟨hname, h⟩ := List.append_inj h encode_name_inj.1
  obtain ⟨htime, h⟩ := List.append_inj h rfl
  obtain ⟨hlength, h⟩ := List.append_inj h rfl
  have hlengths : u.payload.length = v.payload.length :=
    calc u.payload.length
        = (UInt32.ofNat u.payload.length).toNat := (UInt32.toNat_ofNat_of_lt hu).symm
      _ = (UInt32.ofNat v.payload.length).toNat := congrArg UInt32.toNat (Bytes.be32_injective hlength)
      _ = v.payload.length := UInt32.toNat_ofNat_of_lt hv
  obtain ⟨hpayload, hrest⟩ := List.append_inj h hlengths
  obtain ⟨codec, timestamp, payload⟩ := u
  obtain rfl := encode_name_inj.2 hname
  obtain rfl := Bytes.be64_injective htime
  obtain rfl := hpayload
  exact ⟨rfl, hrest⟩

theorem encode_ne_nil (u : AccessUnit) (x : Bytes) : encode u ++ x ≠ [] := by
  simp [encode, Bytes.be32]

/-- **The octets of units tell the units.** -/
theorem flatMap_encode_inj {us vs : List AccessUnit} (hus : ∀ u ∈ us, u.payload.length < 2 ^ 32)
    (hvs : ∀ v ∈ vs, v.payload.length < 2 ^ 32) (h : us.flatMap encode = vs.flatMap encode) :
    us = vs := by
  induction us generalizing vs with
  | nil =>
      cases vs with
      | nil => rfl
      | cons v vs => exact absurd h.symm (encode_ne_nil v _)
  | cons u us ih =>
      cases vs with
      | nil => exact absurd h (encode_ne_nil u _)
      | cons v vs =>
          obtain ⟨hu, husRest⟩ := List.forall_mem_cons.mp hus
          obtain ⟨hv, hvsRest⟩ := List.forall_mem_cons.mp hvs
          rw [List.flatMap_cons, List.flatMap_cons] at h
          obtain ⟨rfl, hrest⟩ := encode_append_inj hu hv h
          rw [ih husRest hvsRest hrest]

end Fingerprint

namespace Replay

open Capture

variable {r r' : Replay} {x : Record} {xs : List Record} {units : List AccessUnit}

/-- **One record** adds the units that it hands out. -/
theorem Effect.fingerprint_eq (h : Effect r x r' units) :
    r'.fingerprint = Fingerprint.addAll r.fingerprint units := by
  cases h <;> rfl

/-- **Any number of records**, descriptions among them, add the units handed out. -/
theorem addRecords_fingerprint (h : (r.addRecords xs).result = .ok r') :
    r'.fingerprint = Fingerprint.addAll r.fingerprint (r.addRecords xs).units := by
  induction xs generalizing r with
  | nil =>
      obtain rfl := Except.ok.inj h
      rfl
  | cons x xs ih =>
      obtain ⟨next, hfirst, hrest⟩ := exists_of_addRecords_cons h
      rw [ih hrest, (addRecord_effect hfirst).fingerprint_eq, (addRecords_cons hfirst xs).2.1,
        Fingerprint.addAll_append]

/-- **The fingerprint tells the units.**  If a capture is replayed to its end, the
summary has the hash of the units handed out, each as codec, time, length and payload,
one behind the other.  And what is hashed is the same for two replays exactly if they
hand out the same units in the same order, and so for any two lists of units, as long
as the lengths of their payloads fit four octets. -/
theorem fingerprint_tells_units :
    (∀ {policy : Policy} {source : Source} {summary : Summary},
      (run policy source).result = .ok summary →
      summary.sha256 =
        Hex.ofBytes (Sha256.digest ((run policy source).units.flatMap Fingerprint.encode))) ∧
    ∀ us vs : List AccessUnit, (∀ u ∈ us, u.payload.length < 2 ^ 32) →
      (∀ v ∈ vs, v.payload.length < 2 ^ 32) →
      (us.flatMap Fingerprint.encode = vs.flatMap Fingerprint.encode ↔ us = vs) := by
  refine ⟨fun {policy source summary} replayed => ?_, fun us vs hus hvs =>
    ⟨Fingerprint.flatMap_encode_inj hus hvs, fun h => h ▸ rfl⟩⟩
  obtain ⟨-, r, hresult, rfl⟩ := run_eq_ok_iff.mp replayed
  have htook := Fingerprint.took_addAll Sha256.Running.took_nothing
    (addRecords { policy } source.readAll.1).units
  rw [List.nil_append] at htook
  rw [run_units, ← htook.finish, addRecords_fingerprint hresult]

/-- A capture of datagrams of one stream, all of one time. -/
def solo (bodies : List Bytes) : Source :=
  .ofBytes (List.flatMap Record.encode
    (⟨.sdp, 0, Utf8.encode "m=video 0 RTP/AVP 96\na=rtpmap:96 H264/90000"⟩ ::
      bodies.mapIdx fun i body =>
        ⟨.rtp, 0, (Rtp.Packet.simple 96 true (UInt16.ofNat i) 9000 1 body).raw⟩))

/-- The payload of one unit imitates another unit behind it. -/
theorem fingerprint_tells_units_imitated :
    let unit (body : Bytes) : AccessUnit := ⟨.h264, 100, Avcc.record body⟩
    let imitation := [0x41] ++ Fingerprint.encode (unit [0x42])
    (run {} (solo [[0x41], [0x42]])).units = [unit [0x41], unit [0x42]] ∧
      (run {} (solo [imitation])).units = [unit imitation] ∧
      (∃ summary, (run {} (solo [[0x41], [0x42]])).result = .ok summary ∧ summary.sha256 =
        "3f35a43a435a772843457982a6e835745413d66ba174bde72e438b399cb37fbf") ∧
      ([unit [0x41], unit [0x42]].flatMap Fingerprint.encode =
          [unit imitation].flatMap Fingerprint.encode ↔
        [unit [0x41], unit [0x42]] = [unit imitation]) := by
  obtain ⟨hhash, htells⟩ := fingerprint_tells_units
  intro unit imitation
  refine ⟨by decide +kernel, by decide +kernel, ?_,
    htells _ _ (by decide +kernel) (by decide +kernel)⟩
  cases hresult : (run {} (solo [[0x41], [0x42]])).result with
  | error e =>
      have hok : (run {} (solo [[0x41], [0x42]])).result.isOk := by decide +kernel
      simp [hresult, Except.isOk, Except.toBool] at hok
  | ok summary => exact ⟨summary, rfl, (hhash hresult).trans (by decide +kernel)⟩

end Replay

end RtpReassembly
