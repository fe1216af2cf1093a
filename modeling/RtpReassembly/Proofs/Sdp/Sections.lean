import RtpReassembly.Sdp.Printer
import RtpReassembly.Proofs.Sdp.Mappings

/-!
# Sections, written and read

Whatever was read of a section can be written, and is read again as it was: its words
have no blanks, its numbers are in range, and the address was trimmed.

* `Mapping.Writable` and `Media.Writable` say so; `Mapping.Denotes.writable` and
  `Media.writable_of_read` that it holds of what was read;
* `Mapping.Writable.read_render` and `Media.Writable.read_render`: what is written is
  read back.
-/

namespace RtpReassembly.Text

theorem isBlank_of_isDigit {c : Char} (h : c.isDigit) : isBlank c = false := by
  rw [Char.isDigit_iff_toNat] at h
  simp only [Char.reduceToNat] at h
  simp only [isBlank]
  grind

theorem isDigit_of_mem_decimal {n : Nat} {c : Char} (h : c ∈ decimal n) : c.isDigit :=
  Nat.isDigit_of_mem_toDigits (by decide) (by decide) h

/-- The digits of a number are a word. -/
theorem word_decimal (n : Nat) : Word (decimal n) :=
  ⟨Nat.toDigits_ne_nil, fun _ hc => isBlank_of_isDigit (isDigit_of_mem_decimal hc)⟩

theorem not_mem_decimal {mark : Char} (h : ¬ mark.isDigit) (n : Nat) : mark ∉ decimal n :=
  fun hm => h (isDigit_of_mem_decimal hm)

end RtpReassembly.Text

namespace RtpReassembly.Sdp

open Text

/-! ## Mappings -/

/-- A mapping that can be written. -/
structure Mapping.Writable (m : Mapping) : Prop where
  payloadType : m.payloadType.toNat ≤ 127
  encoding : Word m.encoding.toList
  slashless : '/' ∉ m.encoding.toList
  params : m.params ≠ some 0

namespace Mapping

variable {m : Mapping}

/-- What a text denotes can be written. -/
theorem Denotes.writable {text : List Char} (h : Denotes text m) : m.Writable := by
  obtain ⟨number, encoding, hsplits, -, hrange, hne, clock, params, hparts, -, hsaid⟩ := h
  have hword := hsplits.word encoding (by simp)
  refine ⟨hrange, ⟨by simpa using hne, fun c hc => hword.2 c ?_⟩, hparts.nameWhole, ?_⟩
  · rw [hparts.textEq]
    exact List.mem_append_left _ hc
  · rintro hzero
    rw [hzero] at hsaid
    cases hsaid with
    | number _ nonzero => exact nonzero rfl

/-- The second word of a mapping that is written. -/
def renderEncoding (m : Mapping) : List Char :=
  m.encoding.toList ++ '/' :: (decimal m.clockRate.toNat ++
    ((m.params.map fun params => decimal params.toNat).map ('/' :: ·)).getD [])

theorem render_eq (m : Mapping) :
    m.render = decimal m.payloadType.toNat ++ spaced [m.renderEncoding] := by
  obtain ⟨payloadType, encoding, clockRate, params⟩ := m
  cases params <;> simp [render, renderEncoding, spaced]

/-- What is written behind the payload type is one word, for neither the name nor
the numbers in it have a blank. -/
theorem Writable.word_renderEncoding (h : m.Writable) : Word m.renderEncoding := by
  have hslash : isBlank '/' = false := by decide
  refine ⟨by simp [renderEncoding], fun c hc => ?_⟩
  simp only [renderEncoding, List.mem_append, List.mem_cons] at hc
  rcases hc with hc | rfl | hc | hc
  · exact h.encoding.2 c hc
  · exact hslash
  · exact (word_decimal _).2 c hc
  · cases hparams : m.params with
    | none => simp [hparams] at hc
    | some params =>
        simp only [hparams, Option.map_some, Option.getD_some, List.mem_cons] at hc
        rcases hc with rfl | hc
        · exact hslash
        · exact (word_decimal _).2 c hc

/-- A mapping is written as two words. -/
theorem Writable.splits_render (h : m.Writable) :
    Splits m.render [decimal m.payloadType.toNat, m.renderEncoding] := by
  rw [render_eq]
  exact splits_append_spaced (word_decimal _) (by simpa using h.word_renderEncoding)

theorem Writable.bare_render (h : m.Writable) : Bare isBlank m.render := by
  rw [render_eq]
  exact bare_append_spaced (word_decimal _) (by simpa using h.word_renderEncoding)

theorem Writable.not_mem_render (h : m.Writable) : '\n' ∉ m.render := by
  rw [render_eq]
  exact not_mem_append_spaced (word_decimal _) (by simpa using h.word_renderEncoding) (by decide)
    (by decide)

/-- **A mapping that is written denotes itself.** -/
theorem Writable.denotes_render (h : m.Writable) : Denotes m.render m := by
  refine ⟨_, _, h.splits_render, numeral_decimal _, h.payloadType, ?_, _, _,
    ⟨h.slashless, not_mem_decimal (by decide) _, rfl⟩, numeral_decimal _, ?_⟩
  · simpa using h.encoding.1
  · have hzero := h.params
    cases hparams : m.params with
    | none => exact .absent
    | some params => exact .number (numeral_decimal _) (by simpa [hparams] using hzero)

/-- **A mapping that is written is read back.** -/
theorem Writable.read_render (h : m.Writable) : read m.render = .ok m :=
  read_eq_ok_iff_denotes.mpr h.denotes_render

end Mapping

/-! ## Media sections -/

/-- The name of the kind that is read of a name is that name. -/
theorem MediaKind.name_ofName (name : String) : (MediaKind.ofName name).name = name := by
  unfold MediaKind.ofName
  split_ifs with haudio hvideo happlication
  · exact haudio.symm
  · exact hvideo.symm
  · exact happlication.symm
  · rfl

/-- A section that can be written. -/
structure Media.Writable (m : Media) : Prop where
  kind : Word m.kind.name.toList
  kindNamed : MediaKind.ofName m.kind.name = m.kind
  proto : Word m.proto.toList
  mappings : ∀ mapping ∈ m.mappings, mapping.Writable
  control : ∀ value ∈ m.control, Bare isBlank value.toList ∧ '\n' ∉ value.toList

namespace Media

variable {m : Media}

/-- The section without what stands behind its first line. -/
def opening (m : Media) : Media :=
  { m with mappings := [], control := none }

/-- The words of the first line. -/
def openingWords (m : Media) : List (List Char) :=
  decimal m.port.toNat :: m.proto.toList :: m.formats.map fun format => decimal format.toNat

theorem render_eq (m : Media) : m.render = m.kind.name.toList ++ spaced m.openingWords := by
  simp [render, openingWords, spaced, List.flatMap_map]

theorem format?_decimal (format : UInt8) : format? (decimal format.toNat) = some format := by
  have hbound := format.toNat_lt
  rw [format?, readNat_decimal (by omega), Except.toOption, Option.map_some, UInt8.ofNat_toNat]

/-- What was read of a first line can be written. -/
theorem writable_of_read {text : List Char} (h : read text = .ok m) : m.Writable := by
  obtain ⟨ws, hsplits⟩ := exists_splits text
  have hwords := hsplits.word
  unfold read at h
  rw [hsplits.words_eq] at h
  match ws with
  | [] | [_] => cases h
  | kind :: port :: rest =>
      cases hport : readNat 65535 (cutAt '/' port).1 with
      | error e => simp [hport] at h
      | ok n =>
          cases rest with
          | nil => simp [hport] at h
          | cons proto formats =>
              simp only [hport, Except.ok.injEq] at h
              subst h
              exact {
                kind := by simpa [MediaKind.name_ofName] using hwords kind (by simp)
                kindNamed := by rw [MediaKind.name_ofName]
                proto := by simpa using hwords proto (by simp)
                mappings := by simp
                control := by simp }

variable (h : m.Writable)
include h

/-- Whatever stands in the first line of a section is a word. -/
theorem Writable.word_openingWords : ∀ w ∈ m.openingWords, Word w := by
  simp only [openingWords, List.forall_mem_cons, List.forall_mem_map]
  exact ⟨word_decimal _, h.proto, fun _ _ => word_decimal _⟩

theorem Writable.bare_render : Bare isBlank m.render := by
  rw [render_eq]
  exact bare_append_spaced h.kind h.word_openingWords

theorem Writable.not_mem_render : '\n' ∉ m.render := by
  rw [render_eq]
  exact not_mem_append_spaced h.kind h.word_openingWords (by decide) (by decide)

/-- **The first line of a section is read back**, without the mappings and the
control that other lines have. -/
theorem Writable.read_render : read m.render = .ok m.opening := by
  have hwords : words m.render = m.kind.name.toList :: m.openingWords := by
    rw [render_eq]
    exact (splits_append_spaced h.kind h.word_openingWords).words_eq
  have hport : cutAt '/' (decimal m.port.toNat) = (decimal m.port.toNat, none) :=
    cutAt_eq_iff.mpr ⟨not_mem_decimal (by decide) _, by simp⟩
  have hbound := m.port.toNat_lt
  rw [read, hwords, openingWords]
  simp only [hport, readNat_decimal (show m.port.toNat ≤ 65535 by omega), String.ofList_toList,
    h.kindNamed, UInt16.ofNat_toNat, List.filterMap_map, Function.comp_def, format?_decimal,
    List.filterMap_some, opening]

end Media

end RtpReassembly.Sdp
