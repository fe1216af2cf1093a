import RtpReassembly.Sdp.Mapping
import RtpReassembly.Proofs.Text.Numerals
import RtpReassembly.Proofs.Text.Words
import Mathlib.Data.List.Basic
import Mathlib.Tactic.Tauto

/-!
# What a mapping is

A mapping is two words: the numeral of a payload type, and a name and the numeral of
a clock rate with a slash between them, behind which a second slash may put
parameters.

* `Mapping.Denotes` is this grammar, with what a text of it means;
* `Mapping.faults` are the things that can be wrong, in the order in which they count,
  and `FirstFault` is the one that is reported;
* each reader has one lemma for what it accepts and one for what it reports;
* `Mapping.parse_iff_denotes` has both for the whole text.
-/

namespace RtpReassembly.Sdp

open Text

/-- The first of the faults that are there is the one with the error `e`. -/
def FirstFault {ε : Type} : List (Prop × ε) → ε → Prop
  | [], _ => False
  | (fault, cause) :: later, e => fault ∧ cause = e ∨ ¬ fault ∧ FirstFault later e

/-- A fault of a later list is the first if there is none before. -/
theorem firstFault_append {ε : Type} {faults later : List (Prop × ε)} {e : ε} :
    FirstFault (faults ++ later) e ↔
      FirstFault faults e ∨ (∀ e, ¬ FirstFault faults e) ∧ FirstFault later e := by
  induction faults with
  | nil => simp [FirstFault]
  | cons f faults ih =>
      obtain ⟨fault, cause⟩ := f
      by_cases hf : fault <;> simp [FirstFault, hf, ih]

namespace Mapping

/-- A text is a name, a slash, a clock rate and maybe a second slash with parameters
behind it. -/
structure Slashed (text name clock : List Char) (params : Option (List Char)) : Prop where
  nameWhole : '/' ∉ name
  clockWhole : '/' ∉ clock
  textEq : text = name ++ '/' :: (clock ++ (params.map ('/' :: ·)).getD [])

/-- There is no slash, or no name in front of it. -/
def Nameless (text : List Char) : Prop :=
  '/' ∉ text ∨ text.head? = some '/'

/-- What parameters say; none, empty ones and the number zero say nothing. -/
inductive ParamsSay : Option (List Char) → Option UInt16 → Prop
  | absent : ParamsSay none none
  | empty : ParamsSay (some []) none
  | zero {text : List Char} (zero : Numeral text 0) : ParamsSay (some text) none
  | number {text : List Char} {n : UInt16} (numeral : Numeral text n.toNat) (nonzero : n ≠ 0) :
      ParamsSay (some text) (some n)

/-- A text of a name and a clock rate, and maybe of parameters, that are those of the
mapping `m`. -/
def EncodingDenotes (text : List Char) (m : Mapping) : Prop :=
  m.encoding ≠ "" ∧ ∃ clock params, Slashed text m.encoding.toList clock params ∧
    Numeral clock m.clockRate.toNat ∧ ParamsSay params m.params

/-- The text is the mapping `m`: two words, of which the first is its payload type, a
number of seven bits, and the second has the rest. -/
def Denotes (text : List Char) (m : Mapping) : Prop :=
  ∃ number encoding, Splits text [number, encoding] ∧
    Numeral number m.payloadType.toNat ∧ m.payloadType.toNat ≤ 127 ∧ EncodingDenotes encoding m

/-! ## What can be wrong -/

/-- With the word that should be the payload type. -/
def numberFaults (text : List Char) : List (Prop × MappingError) :=
  [(¬ ∃ n < 256, Numeral text n, .invalidPayloadType),
    (¬ ∃ n ≤ 127, Numeral text n, .payloadTypeOutOfRange)]

/-- With the word behind it: there is no slash or no name in front of it, or the clock
rate is no number of 32 bits, or the parameters are none of 16 bits. -/
def encodingFaults (text : List Char) : List (Prop × MappingError) :=
  [(Nameless text, .missingParts),
    (∃ name clock params, Slashed text name clock params ∧ ¬ ∃ n < 4294967296, Numeral clock n,
      .invalidClockRate),
    (∃ name clock params, Slashed text name clock params ∧ ¬ ∃ said, ParamsSay params said,
      .invalidParams)]

/-- With a text of the words `ws`. -/
def faults (ws : List (List Char)) : List (Prop × MappingError) :=
  [(ws.length < 2, .missingParts), (2 < ws.length, .trailingWords)] ++
    numberFaults (ws.getD 0 []) ++ encodingFaults (ws.getD 1 [])

/-! ## The readers -/

/-- A payload type is a number of seven bits, though it is read as one of eight.
-/
theorem readPayloadType_eq_ok_iff {text : List Char} {payloadType : UInt8} :
    readPayloadType text = .ok payloadType ↔
      Numeral text payloadType.toNat ∧ payloadType.toNat ≤ 127 := by
  unfold readPayloadType
  cases hread : readNat 255 text with
  | error e =>
      have hnone := readNat_eq_error_iff.mp ⟨e, hread⟩
      simp only [reduceCtorEq, false_iff]
      rintro ⟨hn, hle⟩
      exact hnone ⟨_, by omega, hn⟩
  | ok n =>
      obtain ⟨hn, hbound⟩ := readNat_eq_ok_iff.mp hread
      have hvalue : (UInt8.ofNat n).toNat = n := UInt8.toNat_ofNat_of_lt (show n < 256 by omega)
      by_cases hle : n ≤ 127
      · simp only [if_pos hle, Except.ok.injEq]
        constructor
        · rintro rfl
          rw [hvalue]
          exact ⟨hn, hle⟩
        · rintro ⟨hn', -⟩
          rw [← UInt8.toNat_inj, hvalue, hn.unique hn']
      · simp only [if_neg hle, reduceCtorEq, false_iff]
        rintro ⟨hn', hle'⟩
        exact hle (hn.unique hn' ▸ hle')

/-- The error tells a payload type that is too large from one that is no number of
eight bits. -/
theorem readPayloadType_eq_error_iff {text : List Char} {e : MappingError} :
    readPayloadType text = .error e ↔ FirstFault (numberFaults text) e := by
  unfold readPayloadType
  cases hread : readNat 255 text with
  | error cause =>
      have hnone : ¬ ∃ n < 256, Numeral text n := by
        simpa [Nat.lt_succ_iff] using readNat_eq_error_iff.mp ⟨cause, hread⟩
      simp [numberFaults, FirstFault, hnone]
  | ok n =>
      obtain ⟨hn, hbound⟩ := readNat_eq_ok_iff.mp hread
      have hnumeral : ∃ n < 256, Numeral text n := ⟨n, by omega, hn⟩
      have hrange : (∃ n ≤ 127, Numeral text n) ↔ n ≤ 127 :=
        ⟨fun ⟨m, hle, hm⟩ => hn.unique hm ▸ hle, fun hle => ⟨n, hle, hn⟩⟩
      simp only [numberFaults, FirstFault, hnumeral, hrange]
      by_cases hle : n ≤ 127 <;> simp [hle]

/-- A numeral of 16 bits says its number, unless that is zero. -/
theorem paramsSay_of_numeral {text : List Char} {n : Nat} (numeral : Numeral text n)
    (hbound : n ≤ 65535) {said : Option UInt16} :
    ParamsSay (some text) said ↔ said = if n = 0 then none else some (UInt16.ofNat n) := by
  have hvalue : (UInt16.ofNat n).toNat = n := UInt16.toNat_ofNat_of_lt (show n < 65536 by omega)
  constructor
  · intro h
    cases h with
    | empty => exact absurd numeral (not_numeral_nil n)
    | zero zero => rw [numeral.unique zero, if_pos rfl]
    | @number _ m numeral' nonzero =>
        obtain rfl := numeral.unique numeral'
        have hne : m.toNat ≠ 0 := fun hz => nonzero (UInt16.toNat_inj.mp hz)
        rw [if_neg hne, UInt16.ofNat_toNat]
  · rintro rfl
    by_cases hz : n = 0
    · rw [if_pos hz]
      exact .zero (hz ▸ numeral)
    · rw [if_neg hz]
      exact .number (hvalue.symm ▸ numeral) fun h => hz (by simpa [h] using hvalue.symm)

/-- Parameters are read as what they say; empty ones and the number zero say
nothing. -/
theorem readParams_eq_ok_iff {params : Option (List Char)} {said : Option UInt16} :
    readParams params = .ok said ↔ ParamsSay params said := by
  unfold readParams
  split
  · rw [Except.ok.injEq]
    exact ⟨fun h => h ▸ .absent, fun h => by cases h; rfl⟩
  · rw [Except.ok.injEq]
    refine ⟨fun h => h ▸ .empty, fun h => ?_⟩
    cases h with
    | empty | zero _ => rfl
    | number numeral _ => exact absurd numeral (not_numeral_nil _)
  · rename_i text hne
    cases hread : readNat 65535 text with
    | error e =>
        have hnone := readNat_eq_error_iff.mp ⟨e, hread⟩
        simp only [reduceCtorEq, false_iff]
        intro h
        cases h with
        | empty => exact hne rfl
        | zero numeral => exact hnone ⟨0, Nat.zero_le _, numeral⟩
        | @number _ n numeral _ => exact hnone ⟨_, Nat.le_of_lt_succ n.toNat_lt, numeral⟩
    | ok n =>
        obtain ⟨hn, hbound⟩ := readNat_eq_ok_iff.mp hread
        rw [paramsSay_of_numeral hn hbound]
        cases n <;> simp [eq_comm]

/-- Parameters that are there and no number of sixteen bits are an error. -/
theorem readParams_eq_error_iff {params : Option (List Char)} {e : MappingError} :
    readParams params = .error e ↔ (¬ ∃ said, ParamsSay params said) ∧ .invalidParams = e := by
  cases hread : readParams params with
  | ok said => simpa using fun h => absurd (readParams_eq_ok_iff.mp hread) (h said)
  | error cause =>
      have hcause : cause = .invalidParams := by
        unfold readParams at hread
        grind
      have hnone : ¬ ∃ said, ParamsSay params said := by
        rintro ⟨said, h⟩
        cases hread.symm.trans (readParams_eq_ok_iff.mpr h)
      simp [hcause, hnone]

/-- A text is cut at the first and the second slash. -/
theorem slashed_iff {text name clock : List Char} {params : Option (List Char)} :
    Slashed text name clock params ↔
      ∃ rest, cutAt '/' text = (name, some rest) ∧ cutAt '/' rest = (clock, params) := by
  simp only [cutAt_eq_iff]
  constructor
  · rintro ⟨hname, hclock, rfl⟩
    exact ⟨_, ⟨hname, rfl⟩, hclock, rfl⟩
  · rintro ⟨rest, ⟨hname, rfl⟩, hclock, rfl⟩
    exact ⟨hname, hclock, rfl⟩

/-- A clock rate and what is behind it are read together. -/
theorem readClock_eq_ok_iff {text clock : List Char} {params : Option (List Char)}
    (hcut : cutAt '/' text = (clock, params)) {clockRate : UInt32} {said : Option UInt16} :
    readClock text = .ok (clockRate, said) ↔
      Numeral clock clockRate.toNat ∧ ParamsSay params said := by
  simp only [readClock, hcut]
  cases hread : readNat 4294967295 clock with
  | error e =>
      have hnone := readNat_eq_error_iff.mp ⟨e, hread⟩
      simp only [reduceCtorEq, false_iff]
      rintro ⟨hn, -⟩
      exact hnone ⟨_, Nat.le_of_lt_succ clockRate.toNat_lt, hn⟩
  | ok n =>
      obtain ⟨hn, hbound⟩ := readNat_eq_ok_iff.mp hread
      have hvalue : (UInt32.ofNat n).toNat = n :=
        UInt32.toNat_ofNat_of_lt (show n < 4294967296 by omega)
      have hrate : UInt32.ofNat n = clockRate ↔ Numeral clock clockRate.toNat := by
        rw [← UInt32.toNat_inj, hvalue]
        exact ⟨fun h => h ▸ hn, hn.unique⟩
      rw [← hrate, ← readParams_eq_ok_iff]
      cases readParams params <;> simp

/-- The clock rate is looked at first, even if the parameters are wrong as well.
-/
theorem readClock_eq_error_iff {text clock : List Char} {params : Option (List Char)}
    (hcut : cutAt '/' text = (clock, params)) {e : MappingError} :
    readClock text = .error e ↔
      FirstFault [(¬ ∃ n < 4294967296, Numeral clock n, .invalidClockRate),
        (¬ ∃ said, ParamsSay params said, .invalidParams)] e := by
  simp only [readClock, hcut, FirstFault]
  cases hread : readNat 4294967295 clock with
  | error cause =>
      have hnone : ¬ ∃ n < 4294967296, Numeral clock n := by
        simpa [Nat.lt_succ_iff] using readNat_eq_error_iff.mp ⟨cause, hread⟩
      simp only [hnone, not_false_eq_true, true_and, not_true_eq_false, false_and, or_false,
        Except.error.injEq]
  | ok n =>
      obtain ⟨hn, hbound⟩ := readNat_eq_ok_iff.mp hread
      have hnumeral : ∃ n < 4294967296, Numeral clock n := ⟨n, by omega, hn⟩
      simp only [hnumeral, not_true_eq_false, false_and, not_false_eq_true, true_and, false_or,
        and_false, or_false]
      rw [← readParams_eq_error_iff]
      cases readParams params <;> simp

/-- A text has one name, one clock rate and one set of parameters at most. -/
theorem Slashed.unique {text name name' clock clock' : List Char}
    {params params' : Option (List Char)} (h : Slashed text name clock params)
    (h' : Slashed text name' clock' params') :
    name = name' ∧ clock = clock' ∧ params = params' := by
  obtain ⟨rest, htext, hrest⟩ := slashed_iff.mp h
  obtain ⟨rest', htext', hrest'⟩ := slashed_iff.mp h'
  obtain ⟨rfl, hsome⟩ := Prod.mk.inj (htext.symm.trans htext')
  obtain rfl := Option.some.inj hsome
  exact ⟨rfl, Prod.mk.inj (hrest.symm.trans hrest')⟩

/-- A text with a name in front of its first slash is not nameless. -/
theorem Slashed.not_nameless {text name clock : List Char} {params : Option (List Char)}
    (h : Slashed text name clock params) (hname : name ≠ []) : ¬ Nameless text := by
  obtain ⟨c, name, rfl⟩ := List.exists_cons_of_ne_nil hname
  have hfirst := h.nameWhole
  simp only [List.mem_cons, not_or] at hfirst
  simp [Nameless, h.textEq, Ne.symm hfirst.1]

/-- A text has no name, or it is cut at its slashes. -/
theorem nameless_or_slashed (text : List Char) :
    Nameless text ∨ ∃ name clock params, name ≠ [] ∧ Slashed text name clock params := by
  obtain ⟨⟨name, rest⟩, hcut⟩ : ∃ parts, cutAt '/' text = parts := ⟨_, rfl⟩
  obtain ⟨hname, htext⟩ := cutAt_eq_iff.mp hcut
  cases rest with
  | none => exact .inl (.inl (by simpa [htext] using hname))
  | some rest =>
      by_cases hempty : name = []
      · exact .inl (.inr (by simp [htext, hempty]))
      · exact .inr ⟨name, _, _, hempty, slashed_iff.mpr ⟨rest, hcut, rfl⟩⟩

/-- Without a name nothing is read. -/
theorem readEncoding_of_nameless {text : List Char} (h : Nameless text) (payloadType : UInt8) :
    readEncoding payloadType text = .error .missingParts := by
  obtain ⟨⟨name, rest⟩, hcut⟩ : ∃ parts, cutAt '/' text = parts := ⟨_, rfl⟩
  simp only [readEncoding, hcut]
  cases name with
  | nil => rfl
  | cons c name =>
      cases rest with
      | none => rfl
      | some rest => exact absurd h ((slashed_iff.mpr ⟨rest, hcut, rfl⟩).not_nameless (by simp))

/-- With a name, what is read is told by what stands behind the first slash. -/
theorem Slashed.exists_readEncoding {text name clock : List Char} {params : Option (List Char)}
    (h : Slashed text name clock params) (hname : name ≠ []) (payloadType : UInt8) :
    ∃ rest, cutAt '/' rest = (clock, params) ∧ readEncoding payloadType text =
      match readClock rest with
      | .error e => .error e
      | .ok (clockRate, params) =>
        .ok { payloadType, encoding := String.ofList name, clockRate, params } := by
  obtain ⟨rest, htext, hrest⟩ := slashed_iff.mp h
  obtain ⟨c, name, rfl⟩ := List.exists_cons_of_ne_nil hname
  refine ⟨rest, hrest, ?_⟩
  cases hclock : readClock rest <;> simp only [readEncoding, htext, hclock]

/-- **The second word** is read as what it denotes: a name, the clock rate behind
the first slash, and the parameters behind another, if it is there. -/
theorem readEncoding_eq_ok_iff {payloadType : UInt8} {text : List Char} {m : Mapping} :
    readEncoding payloadType text = .ok m ↔
      m.payloadType = payloadType ∧ EncodingDenotes text m := by
  rcases nameless_or_slashed text with hnameless | ⟨name, clock, params, hname, hparts⟩
  · simp only [readEncoding_of_nameless hnameless, reduceCtorEq, false_iff]
    rintro ⟨-, hne, _, _, h, -⟩
    exact h.not_nameless (by simpa using hne) hnameless
  · obtain ⟨rest, hcut, hread⟩ := hparts.exists_readEncoding hname payloadType
    have hdenotes : EncodingDenotes text m ↔ m.encoding = String.ofList name ∧
        readClock rest = .ok (m.clockRate, m.params) := by
      rw [readClock_eq_ok_iff hcut]
      constructor
      · rintro ⟨-, _, _, h, hclock, hsaid⟩
        obtain ⟨heq, rfl, rfl⟩ := hparts.unique h
        exact ⟨by rw [heq, String.ofList_toList], hclock, hsaid⟩
      · rintro ⟨heq, hclock, hsaid⟩
        refine ⟨by simpa [heq] using hname, clock, params, ?_, hclock, hsaid⟩
        rwa [heq, String.toList_ofList]
    rw [hread, hdenotes]
    obtain ⟨payloadType', encoding, clockRate, said⟩ := m
    cases readClock rest with
    | error e => simp
    | ok value =>
        obtain ⟨clockRate', said'⟩ := value
        simp only [Except.ok.injEq, Mapping.mk.injEq, Prod.mk.injEq]
        tauto

/-- What is so of the parts of a text for some cut is so of its one cut. -/
theorem Slashed.exists_iff {text name clock : List Char} {params : Option (List Char)}
    (h : Slashed text name clock params) (P : List Char → Option (List Char) → Prop) :
    (∃ name clock params, Slashed text name clock params ∧ P clock params) ↔ P clock params := by
  constructor
  · rintro ⟨_, _, _, h', hp⟩
    obtain ⟨-, rfl, rfl⟩ := h.unique h'
    exact hp
  · exact fun hp => ⟨name, clock, params, h, hp⟩

/-- The second word is refused for the first of its faults. -/
theorem readEncoding_eq_error_iff {payloadType : UInt8} {text : List Char} {e : MappingError} :
    readEncoding payloadType text = .error e ↔ FirstFault (encodingFaults text) e := by
  rcases nameless_or_slashed text with hnameless | ⟨name, clock, params, hname, hparts⟩
  · simp [readEncoding_of_nameless hnameless, encodingFaults, FirstFault, hnameless]
  · obtain ⟨rest, hcut, hread⟩ := hparts.exists_readEncoding hname payloadType
    have hclock : readEncoding payloadType text = .error e ↔ readClock rest = .error e := by
      rw [hread]
      cases readClock rest <;> simp
    rw [hclock, readClock_eq_error_iff hcut]
    simp only [encodingFaults, FirstFault, hparts.not_nameless hname, false_and, false_or,
      not_false_eq_true, true_and,
      hparts.exists_iff fun clock _ => ¬ ∃ n < 4294967296, Numeral clock n,
      hparts.exists_iff fun _ params => ¬ ∃ said, ParamsSay params said]

/-! ## The whole text -/

/-- Two words are read one after the other, the payload type first. -/
theorem read_of_two {text number encoding : List Char} (h : Splits text [number, encoding]) :
    read text =
      match readPayloadType number with
      | .error e => .error e
      | .ok payloadType => readEncoding payloadType encoding := by
  cases hnumber : readPayloadType number <;> simp only [read, h.words_eq, hnumber]

theorem read_of_few {text : List Char} {ws : List (List Char)} (h : Splits text ws)
    (few : ws.length < 2) : read text = .error .missingParts := by
  rw [read, h.words_eq]
  match ws with
  | [] | [_] => rfl

theorem read_of_many {text : List Char} {ws : List (List Char)} (h : Splits text ws)
    (many : 2 < ws.length) : read text = .error .trailingWords := by
  rw [read, h.words_eq]
  match ws with
  | _ :: _ :: _ :: _ => rfl

/-- **A mapping is read** of exactly the texts that denote it. -/
theorem read_eq_ok_iff_denotes {text : List Char} {m : Mapping} :
    read text = .ok m ↔ Denotes text m := by
  obtain ⟨ws, h⟩ := exists_splits text
  have hdenotes : Denotes text m ↔ ∃ number encoding, ws = [number, encoding] ∧
      Numeral number m.payloadType.toNat ∧ m.payloadType.toNat ≤ 127 ∧
        EncodingDenotes encoding m := by
    simp only [Denotes, ← words_eq_iff, h.words_eq]
  rw [hdenotes]
  rcases Nat.lt_trichotomy ws.length 2 with few | two | many
  · simp only [read_of_few h few, reduceCtorEq, false_iff]
    rintro ⟨number, encoding, rfl, -⟩
    simp at few
  · obtain ⟨number, encoding, rfl⟩ := List.length_eq_two.mp two
    rw [read_of_two h]
    simp only [List.cons.injEq, and_true, and_assoc, exists_and_left, exists_eq_left']
    rw [← and_assoc, ← readPayloadType_eq_ok_iff]
    cases readPayloadType number with
    | error e => simp
    | ok payloadType =>
        simp only [readEncoding_eq_ok_iff, Except.ok.injEq, eq_comm (a := payloadType)]
  · simp only [read_of_many h many, reduceCtorEq, false_iff]
    rintro ⟨number, encoding, rfl, -⟩
    simp at many

/-- A text that denotes no mapping is refused for the first of its faults. -/
theorem read_eq_error_iff {text : List Char} {ws : List (List Char)} (h : Splits text ws)
    {e : MappingError} : read text = .error e ↔ FirstFault (faults ws) e := by
  simp only [faults, firstFault_append]
  rcases Nat.lt_trichotomy ws.length 2 with few | two | many
  · simp [read_of_few h few, FirstFault, few]
  · obtain ⟨number, encoding, rfl⟩ := List.length_eq_two.mp two
    have hcount (e' : MappingError) : ¬ FirstFault [([number, encoding].length < 2,
        MappingError.missingParts), (2 < [number, encoding].length, .trailingWords)] e' := by
      simp [FirstFault]
    simp only [read_of_two h, hcount, false_or, not_false_eq_true, implies_true, true_and,
      List.getD_cons_zero, List.getD_cons_succ, ← readPayloadType_eq_error_iff]
    cases readPayloadType number with
    | error cause => simp
    | ok payloadType => simp [readEncoding_eq_error_iff]
  · simp [read_of_many h many, FirstFault, many, Nat.not_lt_of_gt many]

/-- **The grammar of mappings.**  A text is read exactly if it has two words of which
the first is the numeral of seven bits, and the second a name, a slash and the numeral
of a clock rate, maybe with parameters behind a second slash; the mapping has these
values.  Any other text is refused for the first thing that is wrong with it. -/
theorem parse_iff_denotes (text : String) :
    (∀ m, parse text = .ok m ↔ Denotes text.toList m) ∧
    ∃ ws, Splits text.toList ws ∧ ∀ e, parse text = .error e ↔ FirstFault (faults ws) e := by
  obtain ⟨ws, h⟩ := exists_splits text.toList
  exact ⟨fun m => read_eq_ok_iff_denotes, ws, h, fun e => read_eq_error_iff h⟩

end Mapping

end RtpReassembly.Sdp
