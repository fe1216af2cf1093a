import RtpReassembly.Proofs.Sdp.Sections
import RtpReassembly.Proofs.Text.Lines
import Mathlib.Data.List.Forall2
import Mathlib.Logic.Relation

/-!
# Descriptions, written and read

A description keeps what matters of its text and nothing else: it can be written, and
is read again from that, and a text that is laid out in another way, or has other lines
that are passed over, is read like it.

* `PassedOver` lines do not count; `Description.read_eq` says that only the others are
  looked at, and `read_eq_of_relaid` that the layout of a text makes no difference, to
  errors neither;
* `Description.writable_of_read` and `Description.Writable.read_render`: what was read can
  be written, and whatever can be written is read back;
* `Description.exists_announced`: each mapping of each section announces one stream;
* `Description.parse_recovers` has all of it.
-/

namespace RtpReassembly.Sdp

open Text

/-! ## Lines -/

/-- A line that is no `m=`, `a=rtpmap:` or `a=control:` line, blanks in front of it apart. -/
def PassedOver (line : List Char) : Prop :=
  ¬ "m=".toList <+: trim line ∧ ¬ "a=rtpmap:".toList <+: trim line ∧
    ¬ "a=control:".toList <+: trim line

instance : DecidablePred PassedOver := fun _ =>
  inferInstanceAs (Decidable (_ ∧ _))

namespace Line

/-- Blanks around a line make no difference to it. -/
theorem ofText_trims : Trims ofText .other where
  trim line := by
    unfold ofText
    rw [trim_eq_self (bare_trim line)]
  empty := rfl

/-- A line with none of the three openings is nothing to the reader. -/
theorem ofText_of_passedOver {line : List Char} (h : PassedOver line) : ofText line = .other := by
  have hnone {head : List Char} (hhead : ¬ head <+: trim line) :
      afterHead? head (trim line) = none :=
    Option.eq_none_iff_forall_ne_some.mpr fun rest hrest =>
      hhead ⟨rest, (afterHead?_eq_some_iff.mp hrest).symm⟩
  obtain ⟨hmedia, hmapping, hcontrol⟩ := h
  simp only [ofText, hnone hmedia, hnone hmapping, hnone hcontrol]

variable {value : List Char}

theorem ofText_media (h : Bare isBlank value) : ofText ("m=".toList ++ value) = .media value := by
  rw [ofText, trim_append_of_bare (by decide) (by decide) h]
  rfl

theorem ofText_mapping (h : Bare isBlank value) :
    ofText ("a=rtpmap:".toList ++ value) = .mapping value := by
  rw [ofText, trim_append_of_bare (by decide) (by decide) h]
  rfl

theorem ofText_control (h : Bare isBlank value) :
    ofText ("a=control:".toList ++ value) = .control value := by
  rw [ofText, trim_append_of_bare (by decide) (by decide) h]
  rfl

/-- What a control line says stands in it. -/
theorem mem_of_ofText_control {line : List Char} {c : Char} (h : ofText line = .control value)
    (hc : c ∈ value) : c ∈ line := by
  refine mem_of_mem_trim ?_
  simp only [ofText] at h
  cases hmedia : afterHead? "m=".toList (trim line) <;> simp only [hmedia] at h
  case some => cases h
  cases hmapping : afterHead? "a=rtpmap:".toList (trim line) <;> simp only [hmapping] at h
  case some => cases h
  cases hcontrol : afterHead? "a=control:".toList (trim line) <;> simp only [hcontrol] at h
  case none => cases h
  case some =>
    cases h
    rw [afterHead?_eq_some_iff.mp hcontrol]
    exact List.mem_append_right _ hc

end Line

namespace Description

/-! ## Only some lines count -/

/-- Lines that are nothing to the reader can be left out. -/
theorem addLines_filter (sections : List Media) (ls : List Line) :
    addLines sections (ls.filter (· ≠ .other)) = addLines sections ls := by
  induction ls generalizing sections with
  | nil => rfl
  | cons line ls ih =>
      by_cases hline : line = .other
      · subst hline
        simpa [addLines, addLine] using ih sections
      · rw [List.filter_cons_of_pos (by simpa using hline), addLines, addLines]
        cases addLine sections line with
        | error e => rfl
        | ok sections => exact ih sections

/-- Reading looks at the lines that count and at nothing else. -/
theorem read_eq (text : List Char) :
    read text =
      match addLines [] (significant Line.ofText .other text) with
      | .error e => .error e
      | .ok [] => .error (.missing .media)
      | .ok sections => .ok { media := sections.reverse } := by
  rw [significant, addLines_filter]
  rfl

/-- Another layout of a text is read as the same description, or refused with the
same error. -/
theorem read_eq_of_relaid {text text' : List Char} (h : Relaid PassedOver text text') :
    read text = read text' := by
  rw [read_eq, read_eq, h.significant_eq Line.ofText_trims fun _ => Line.ofText_of_passedOver]

/-- A description is read when every line fits and there is a section; the
sections are collected the other way round. -/
theorem read_eq_ok_iff {text : List Char} {d : Description} :
    read text = .ok d ↔
      d.media ≠ [] ∧ addLines [] (significant Line.ofText .other text) = .ok d.media.reverse := by
  obtain ⟨media⟩ := d
  rw [read_eq]
  cases addLines [] (significant Line.ofText .other text) with
  | error e => simp
  | ok sections =>
      cases sections with
      | nil => simp
      | cons m older =>
          have hne (h : m :: older = media.reverse) : media ≠ [] := by
            rintro rfl
            cases h
          have hreverse : (m :: older).reverse = media ↔ m :: older = media.reverse :=
            List.reverse_eq_iff
          simpa only [Except.ok.injEq, Description.mk.injEq, hreverse] using
            (and_iff_right_of_imp hne).symm

/-! ## Read, written and read again -/

/-- A description that can be written. -/
structure Writable (d : Description) : Prop where
  media : d.media ≠ []
  sections : ∀ m ∈ d.media, m.Writable

/-- **One line** leaves sections that can be written: it opens one whose first
line was read, adds a mapping that was read to the last, or gives it a control,
which stands in one line. -/
theorem writable_addLine {sections sections' : List Media} {line : Line}
    (hline : ∀ value, line = .control value → '\n' ∉ value) (h : ∀ m ∈ sections, m.Writable)
    (hadd : addLine sections line = .ok sections') : ∀ m ∈ sections', m.Writable := by
  cases line with
  | media value =>
      cases hread : Media.read value with
      | error e => simp [addLine, hread] at hadd
      | ok m =>
          simp only [addLine, hread, Except.ok.injEq] at hadd
          subst hadd
          exact List.forall_mem_cons.mpr ⟨Media.writable_of_read hread, h⟩
  | mapping value =>
      cases sections with
      | nil => simp [addLine] at hadd
      | cons m older =>
          cases hread : Mapping.read value with
          | error e => simp [addLine, hread] at hadd
          | ok mapping =>
              simp only [addLine, hread, Except.ok.injEq] at hadd
              subst hadd
              obtain ⟨hm, holder⟩ := List.forall_mem_cons.mp h
              have hmapping : mapping.Writable :=
                (Mapping.read_eq_ok_iff_denotes.mp hread).writable
              refine List.forall_mem_cons.mpr ⟨{ hm with mappings := ?_ }, holder⟩
              exact List.forall_mem_append.mpr ⟨hm.mappings, by simpa using hmapping⟩
  | control value =>
      cases sections with
      | nil => simp_all [addLine]
      | cons m older =>
          simp only [addLine, Except.ok.injEq] at hadd
          subst hadd
          obtain ⟨hm, holder⟩ := List.forall_mem_cons.mp h
          refine List.forall_mem_cons.mpr ⟨{ hm with control := ?_ }, holder⟩
          rintro _ ⟨⟩
          rw [String.toList_ofList]
          exact ⟨bare_trim value, fun hm => hline value rfl (mem_of_mem_trim hm)⟩
  | other => simp_all [addLine]

/-- All lines of a text leave sections that can be written, by induction on them.
-/
theorem writable_addLines {sections sections' : List Media} {ls : List Line}
    (hls : ∀ value, .control value ∈ ls → '\n' ∉ value) (h : ∀ m ∈ sections, m.Writable)
    (hadd : addLines sections ls = .ok sections') : ∀ m ∈ sections', m.Writable := by
  induction ls generalizing sections with
  | nil =>
      cases hadd
      exact h
  | cons line ls ih =>
      rw [addLines] at hadd
      cases hone : addLine sections line with
      | error e => simp [hone] at hadd
      | ok next =>
          rw [hone] at hadd
          have hnext := writable_addLine (fun value hv => hls value (by simp [hv])) h hone
          exact ih (fun value hv => hls value (List.mem_cons_of_mem line hv)) hnext hadd

/-- What was read can be written. -/
theorem writable_of_read {text : List Char} {d : Description} (h : read text = .ok d) :
    d.Writable := by
  obtain ⟨hmedia, hadd⟩ := read_eq_ok_iff.mp h
  refine ⟨hmedia, fun m hm => writable_addLines (fun value hv hmem => ?_) (by simp) hadd m
    (List.mem_reverse.mpr hm)⟩
  obtain ⟨line, one, hline⟩ := exists_of_mem_significant Line.ofText_trims hv
  exact one (Line.mem_of_ofText_control hline hmem)

end Description

/-! ### Lines of a section -/

namespace Media

variable {m : Media} (h : m.Writable)
include h

/-- The lines of a section are those of its opening, its mappings and its control,
as the reader tells them apart. -/
theorem Writable.map_lines :
    m.lines.map Line.ofText =
      .media m.render :: (m.mappings.map (.mapping ·.render) ++
        (m.control.map (.control ·.toList)).toList) := by
  have hmappings : m.mappings.map (fun mapping =>
      Line.ofText ("a=rtpmap:".toList ++ mapping.render)) = m.mappings.map (.mapping ·.render) :=
    List.map_congr_left fun mapping hm => Line.ofText_mapping (h.mappings mapping hm).bare_render
  have hcontrol := h.control
  rw [lines, List.cons_append, List.map_cons, List.map_append, List.map_map,
    Line.ofText_media h.bare_render]
  congr 2
  cases hvalue : m.control with
  | none => rfl
  | some value =>
      have hbare : Bare isBlank value.toList := (hcontrol value hvalue).1
      simpa using Line.ofText_control hbare

theorem Writable.not_mem_lines : ∀ line ∈ m.lines, '\n' ∉ line := by
  intro line hline
  simp only [lines, List.cons_append, List.mem_cons, List.mem_append, List.mem_map,
    Option.mem_toList, Option.map_eq_some_iff] at hline
  rcases hline with rfl | ⟨mapping, hm, rfl⟩ | ⟨value, hvalue, rfl⟩
  · simpa using h.not_mem_render
  · simpa using (h.mappings mapping hm).not_mem_render
  · simpa using (h.control value hvalue).2

end Media

namespace Description

theorem addLines_append {sections sections' : List Media} {ls : List Line}
    (h : addLines sections ls = .ok sections') (more : List Line) :
    addLines sections (ls ++ more) = addLines sections' more := by
  induction ls generalizing sections with
  | nil =>
      cases h
      rfl
  | cons line ls ih =>
      rw [addLines] at h
      rw [List.cons_append, addLines]
      cases hone : addLine sections line with
      | error e => simp [hone] at h
      | ok next => exact ih (by simpa only [hone] using h)

/-- The mappings that are written for a section join it. -/
theorem addLines_mappings (m : Media) (older : List Media) {ms : List Mapping}
    (h : ∀ mapping ∈ ms, mapping.Writable) :
    addLines (m :: older) (ms.map (.mapping ·.render)) =
      .ok ({ m with mappings := m.mappings ++ ms } :: older) := by
  induction ms generalizing m with
  | nil => simp [addLines]
  | cons mapping ms ih =>
      obtain ⟨hmapping, hms⟩ := List.forall_mem_cons.mp h
      rw [List.map_cons, addLines, addLine, hmapping.read_render]
      simpa using ih { m with mappings := m.mappings ++ [mapping] } hms

/-- The lines of a section make it. -/
theorem addLines_section {m : Media} (h : m.Writable) (older : List Media) :
    addLines older (m.lines.map Line.ofText) = .ok (m :: older) := by
  have hopening : addLine older (.media m.render) = .ok (m.opening :: older) := by
    rw [addLine, h.read_render]
  rw [h.map_lines, addLines, hopening]
  dsimp only
  rw [addLines_append (addLines_mappings m.opening older h.mappings)]
  have hcontrol := h.control
  obtain ⟨kind, port, proto, formats, mappings, control⟩ := m
  cases control with
  | none => rfl
  | some value =>
      have htrim : trim value.toList = value.toList := trim_eq_self (hcontrol value rfl).1
      simp [addLines, addLine, Media.opening, htrim]

/-- The lines of all sections make them. -/
theorem addLines_sections {ms : List Media} (h : ∀ m ∈ ms, m.Writable) (older : List Media) :
    addLines older ((ms.flatMap Media.lines).map Line.ofText) = .ok (ms.reverse ++ older) := by
  induction ms generalizing older with
  | nil => rfl
  | cons m ms ih =>
      obtain ⟨hm, hms⟩ := List.forall_mem_cons.mp h
      rw [List.flatMap_cons, List.map_append, addLines_append (addLines_section hm older), ih hms]
      simp

/-- **What can be written is read back.** -/
theorem Writable.read_render {d : Description} (h : d.Writable) : read d.render = .ok d := by
  have one : ∀ line ∈ d.media.flatMap Media.lines, '\n' ∉ line := by
    simp only [List.mem_flatMap]
    rintro line ⟨m, hm, hline⟩
    exact (h.sections m hm).not_mem_lines line hline
  refine read_eq_ok_iff.mpr ⟨h.media, ?_⟩
  rw [render, significant_unlines Line.ofText_trims one, addLines_filter,
    addLines_sections h.sections, List.append_nil]

/-! ## Streams -/

/-- The stream that a mapping of a section announces. -/
inductive Announces : Media × Mapping → VideoStream ⊕ UnsupportedStream → Prop
  | video {m : Media} {mapping : Mapping} {codec : Codec} (known : mapping.codec? = some codec) :
      Announces (m, mapping) (.inl
        { payloadType := mapping.payloadType, codec, clockRate := mapping.clockRate,
          control := m.control })
  | unsupported {m : Media} {mapping : Mapping} (unknown : mapping.codec? = none) :
      Announces (m, mapping) (.inr
        { kind := m.kind, payloadType := mapping.payloadType, encoding := mapping.encoding })

/-- **Streams.**  Each mapping of each section announces one stream, and the streams that can
be reassembled and the others are these, each in the order in which the mappings stand in
the sections. -/
theorem exists_announced (d : Description) :
    ∃ streams, List.Forall₂ Announces (d.media.flatMap fun m => m.mappings.map (m, ·)) streams ∧
      d.videoStreams = streams.filterMap Sum.getLeft? ∧
      d.unsupportedStreams = streams.filterMap Sum.getRight? := by
  unfold videoStreams unsupportedStreams mappings
  -- from here on it does not matter which section a mapping is of
  induction d.media.flatMap fun m => m.mappings.map (m, ·) with
  | nil => exact ⟨[], .nil, rfl, rfl⟩
  | cons announcement rest ih =>
      obtain ⟨m, mapping⟩ := announcement
      obtain ⟨streams, hannounced, hvideo, hunsupported⟩ := ih
      cases hcodec : mapping.codec? with
      | none =>
          refine ⟨_, .cons (.unsupported hcodec) hannounced, ?_, ?_⟩
          · rw [List.filterMap_cons_none (by simp [videoStream?, hcodec]), hvideo]
            rfl
          · rw [List.filter_cons_of_pos (by simp [hcodec]), List.map_cons, hunsupported]
            rfl
      | some codec =>
          refine ⟨_, .cons (.video hcodec) hannounced, ?_, ?_⟩
          · rw [List.filterMap_cons_some (by simp [videoStream?, hcodec]; rfl), hvideo]
            rfl
          · rw [List.filter_cons_of_neg (by simp [hcodec]), hunsupported]
            rfl

/-! ## All of it -/

/-- **Descriptions.**  What was read of a text is read again from what is written of it, and so
is every description that can be written, and no other; the layout of a text, and the lines
in it that are passed over, make no difference to what is read or to why nothing is; and each
mapping of each section announces one stream, in order. -/
theorem parse_recovers :
    (∀ text d, parse text = .ok d → parse (String.ofList d.render) = .ok d) ∧
    (∀ d : Description, parse (String.ofList d.render) = .ok d ↔ d.Writable) ∧
    (∀ text text' : String,
      Relation.EqvGen (Relaid PassedOver) text.toList text'.toList → parse text = parse text') ∧
    ∀ d : Description, ∃ streams,
      List.Forall₂ Announces (d.media.flatMap fun m => m.mappings.map (m, ·)) streams ∧
        d.videoStreams = streams.filterMap Sum.getLeft? ∧
        d.unsupportedStreams = streams.filterMap Sum.getRight? := by
  have hwritten {d : Description} (h : d.Writable) : parse (String.ofList d.render) = .ok d := by
    rw [parse, String.toList_ofList]
    exact h.read_render
  refine ⟨fun text d h => hwritten (writable_of_read h),
    fun d => ⟨fun h => writable_of_read h, hwritten⟩, fun text text' h => ?_, exists_announced⟩
  unfold parse
  generalize text.toList = chars at h
  generalize text'.toList = chars' at h
  induction h with
  | rel _ _ hrelaid => exact read_eq_of_relaid hrelaid
  | refl _ => rfl
  | symm _ _ _ ih => exact ih.symm
  | trans _ _ _ _ _ ih ih' => exact ih.trans ih'

/-- A video section with a sign and zeros that are not needed, and an audio section; the same
with another line, a carriage return and a blank; and the streams of both. -/
theorem parse_recovers_loose :
    let first := "m=video 0 RTP/AVP 96".toList
    let second := "a=rtpmap:+096 H264/90000/0".toList
    let others := ["a=control: streamid=0".toList, "m=audio 0 RTP/AVP 97".toList,
      "a=rtpmap:97 MPEG4-GENERIC/44100/2".toList]
    let text := String.ofList (ofPieces (first :: second :: others))
    let text' := String.ofList
      (ofPieces ("v=0".toList :: (first ++ ['\r']) :: ('\t' :: second) :: others))
    let video : Media :=
      { kind := .video, port := 0, proto := "RTP/AVP", formats := [96]
        mappings := [{ payloadType := 96, encoding := "H264", clockRate := 90000 }]
        control := some "streamid=0" }
    let audio : Media :=
      { kind := .audio, port := 0, proto := "RTP/AVP", formats := [97]
        mappings := [
          { payloadType := 97, encoding := "MPEG4-GENERIC", clockRate := 44100, params := some 2 }] }
    let d : Description := ⟨[video, audio]⟩
    parse text = .ok d ∧ parse (String.ofList d.render) = .ok d ∧ d.Writable ∧
      parse text = parse text' ∧
      d.render = ("m=video 0 RTP/AVP 96\na=rtpmap:96 H264/90000\na=control:streamid=0\n" ++
        "m=audio 0 RTP/AVP 97\na=rtpmap:97 MPEG4-GENERIC/44100/2\n").toList ∧
      d.videoStreams = [⟨96, .h264, 90000, some "streamid=0"⟩] ∧
      d.unsupportedStreams = [⟨.audio, 97, "MPEG4-GENERIC"⟩] := by
  intro first second others text text' video audio d
  have hread : parse text = .ok d := by decide +kernel
  have hagain : parse (String.ofList d.render) = .ok d := parse_recovers.1 text d hread
  have hline : PassedOver "v=0".toList := by decide +kernel
  have hinserted : Relaid PassedOver (ofPieces (first :: second :: others))
      (ofPieces ("v=0".toList :: first :: second :: others)) := .insert [] _ (by decide) hline
  have hended : Relaid PassedOver (ofPieces ("v=0".toList :: first :: second :: others))
      (ofPieces ("v=0".toList :: (first ++ ['\r']) :: second :: others)) :=
    .lineEnd ["v=0".toList] _ (by decide) (by simp)
  have hindented : Relaid PassedOver
      (ofPieces ("v=0".toList :: (first ++ ['\r']) :: second :: others))
      (ofPieces ("v=0".toList :: (first ++ ['\r']) :: ('\t' :: second) :: others)) :=
    .blanks ["v=0".toList, first ++ ['\r']] _ ['\t'] second [] (by decide) (by decide) (by decide)
  have hrelaid : Relation.EqvGen (Relaid PassedOver) text.toList text'.toList := by
    rw [String.toList_ofList, String.toList_ofList]
    exact .trans _ _ _ (.rel _ _ hinserted) (.trans _ _ _ (.rel _ _ hended) (.rel _ _ hindented))
  exact ⟨hread, hagain, (parse_recovers.2.1 d).mp hagain,
    parse_recovers.2.2.1 text text' hrelaid, by decide +kernel, by decide +kernel,
    by decide +kernel⟩

end Description

end RtpReassembly.Sdp
