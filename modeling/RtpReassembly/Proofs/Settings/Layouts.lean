import RtpReassembly.Settings.Printer
import RtpReassembly.Proofs.Settings.Assignments
import RtpReassembly.Proofs.Text.Lines
import Mathlib.Data.List.Basic
import Mathlib.Logic.Relation

/-!
# Settings, laid out and read

Settings can be written in many ways: keys and sections in any order, a section in any
number of blocks, lines between that are passed over, and pairs that are assigned again
later.  All of these are read alike.

* `Key`, `Name` and `Value` say what can be written as one, and `Line.ofText_renderPair`,
  `Line.ofText_renderHeader` that it is read back from its line;
* `Layout.Plain.value?_read`: of a layout the last value of each key is read;
* `Layout.Writes l s`: a layout has what the settings have, and nothing else;
* `Padded` is one change of a text that makes no difference, as `Padded.agree` says;
* `parse_restores` has all of it.
-/

namespace RtpReassembly.Settings

open Text

/-! ## Lines -/

/-- Without blanks at its ends, in one line, without an equals sign and not like a comment. -/
structure Key (key : String) : Prop where
  bare : Bare isBlank key.toList
  one : '\n' ∉ key.toList
  whole : '=' ∉ key.toList
  uncommented : key.toList.head? ≠ some '#'

/-- Without blanks at its ends and in one line. -/
structure Name (name : String) : Prop where
  bare : Bare isBlank name.toList
  one : '\n' ∉ name.toList

/-- Without double quotes at its ends and in one line. -/
structure Value (value : String) : Prop where
  bare : Bare (· == '"') value.toList
  one : '\n' ∉ value.toList

instance : DecidablePred Key := fun key =>
  decidable_of_iff (Bare isBlank key.toList ∧ '\n' ∉ key.toList ∧ '=' ∉ key.toList ∧
      key.toList.head? ≠ some '#')
    ⟨fun ⟨bare, one, whole, uncommented⟩ => ⟨bare, one, whole, uncommented⟩,
      fun h => ⟨h.bare, h.one, h.whole, h.uncommented⟩⟩

instance : DecidablePred Name := fun name =>
  decidable_of_iff (Bare isBlank name.toList ∧ '\n' ∉ name.toList)
    ⟨fun ⟨bare, one⟩ => ⟨bare, one⟩, fun h => ⟨h.bare, h.one⟩⟩

instance : DecidablePred Value := fun value =>
  decidable_of_iff (Bare (· == '"') value.toList ∧ '\n' ∉ value.toList)
    ⟨fun ⟨bare, one⟩ => ⟨bare, one⟩, fun h => ⟨h.bare, h.one⟩⟩

/-- A line without anything but blanks, a comment, or a line that opens no section and has no
equals sign. -/
def PassedOver (line : List Char) : Prop :=
  trim line = [] ∨ (trim line).head? = some '#' ∨
    ('=' ∉ line ∧ ∀ name, trim line ≠ '[' :: (name ++ [']']))

/-- A name in brackets is all that stands between the first and the last
character. -/
theorem bracketed?_eq_some_iff {text name : List Char} :
    bracketed? text = some name ↔ text = '[' :: (name ++ [']']) := by
  unfold bracketed?
  split
  · rename_i rest
    rw [List.cons.injEq, eq_self, true_and]
    constructor
    · intro h
      split at h
      · rename_i hlast
        obtain ⟨init, rfl⟩ := List.getLast?_eq_some_iff.mp hlast
        simpa using h
      · cases h
    · rintro rfl
      simp
  · rename_i hopen
    refine ⟨nofun, fun h => ?_⟩
    exact absurd h (hopen _)

namespace Line

/-- Blanks around a line make no difference to it. -/
theorem ofText_trims : Trims ofText .other where
  trim line := by
    unfold ofText
    rw [trim_eq_self (bare_trim line)]
  empty := rfl

/-- A line that is passed over is nothing to the reader. -/
theorem ofText_of_passedOver {line : List Char} (h : PassedOver line) : ofText line = .other := by
  unfold ofText
  rcases h with hempty | hcomment | ⟨hpairless, hopen⟩
  · simp [hempty]
  · simp [hcomment]
  · have hbracketed : bracketed? (trim line) = none :=
      Option.eq_none_iff_forall_ne_some.mpr fun name hname =>
        hopen name (bracketed?_eq_some_iff.mp hname)
    have hcut : cutAt '=' (trim line) = (trim line, none) :=
      cutAt_eq_iff.mpr ⟨fun hm => hpairless (mem_of_mem_trim hm), by simp⟩
    simp [hbracketed, hcut]

/-- A header that is written is read back. -/
theorem ofText_renderHeader {name : String} (h : Name name) :
    ofText (renderHeader name) = .header name := by
  have hbare : Bare isBlank (renderHeader name) :=
    bare_cons_append (by decide) (by decide) name.toList
  have hbracketed : bracketed? (renderHeader name) = some name.toList :=
    bracketed?_eq_some_iff.mpr rfl
  have hcomment : (renderHeader name).head? ≠ some '#' := by simp [renderHeader]
  have hne : (renderHeader name).isEmpty = false := rfl
  simp [ofText, trim_eq_self hbare, hbracketed, hcomment, hne, trim_eq_self h.bare]

/-- A line that is cut at an equals sign is a pair, unless it is a comment or in brackets. -/
theorem ofText_eq_pair {line key value : List Char} (htrim : trim line = key ++ '=' :: value)
    (whole : '=' ∉ key) (uncommented : key.head? ≠ some '#')
    (unbracketed : ('=' :: value).getLast? ≠ some ']') :
    ofText line = .pair (String.ofList (trim key)) (String.ofList (unquote (trim value))) := by
  have hcut : cutAt '=' (key ++ '=' :: value) = (key, some value) :=
    cutAt_eq_iff.mpr ⟨whole, rfl⟩
  have hbracketed : bracketed? (key ++ '=' :: value) = none := by
    refine Option.eq_none_iff_forall_ne_some.mpr fun name hname => unbracketed ?_
    have hlast := congrArg List.getLast? (bracketed?_eq_some_iff.mp hname)
    rwa [List.getLast?_append, List.getLast?_cons, Option.some_or, ← List.getLast?_cons,
      ← List.cons_append, List.getLast?_concat] at hlast
  have hcomment : ¬ ((key ++ '=' :: value).isEmpty ∨ (key ++ '=' :: value).head? = some '#') := by
    cases key with
    | nil => simp
    | cons c key => simpa using uncommented
  simp only [ofText, htrim, hcomment, if_false, hbracketed, hcut]

/-- The line of a pair, without blanks at its ends. -/
theorem trim_renderPair {key : String} (h : Bare isBlank key.toList) (value : String) :
    ∃ gap, Blanks gap ∧ trim (renderPair key value) =
      (key.toList ++ gap) ++ '=' :: ' ' :: '"' :: (value.toList ++ ['"']) := by
  have hbare : Bare isBlank ('=' :: ' ' :: '"' :: (value.toList ++ ['"'])) :=
    bare_cons_append (by decide) (by decide) (' ' :: '"' :: value.toList)
  have hspace : Blanks [' '] := by decide
  have hline : renderPair key value =
      key.toList ++ ' ' :: '=' :: ' ' :: '"' :: (value.toList ++ ['"']) := by simp [renderPair]
  rw [hline]
  by_cases hne : key.toList = []
  · -- the space in front of the equals sign is trimmed off
    have htrim := trim_blanks_append hspace ('=' :: ' ' :: '"' :: (value.toList ++ ['"']))
    rw [trim_eq_self hbare] at htrim
    exact ⟨[], by decide, by simpa [hne] using htrim⟩
  · have hwhole :
        Bare isBlank (key.toList ++ ' ' :: '=' :: ' ' :: '"' :: (value.toList ++ ['"'])) :=
      bare_append h hne (by simpa [List.getLast?_cons] using hbare.2)
    exact ⟨[' '], hspace, by rw [trim_eq_self hwhole, List.append_assoc]; rfl⟩

/-- Whatever its value, the line of a pair is one of its key. -/
theorem ofText_renderPair_quoted {key : String} (h : Key key) (value : String) :
    ofText (renderPair key value) =
      .pair key (String.ofList (unquote ('"' :: (value.toList ++ ['"'])))) := by
  obtain ⟨gap, hgap, htrim⟩ := trim_renderPair h.bare value
  have hmark {c : Char} (hc : ¬ isBlank c) : c ∉ gap := fun hm => hc (hgap c hm)
  have hwhole : '=' ∉ key.toList ++ gap := by simp [h.whole, hmark, isBlank]
  have huncommented : (key.toList ++ gap).head? ≠ some '#' := by
    intro hhead
    rw [List.head?_append, Option.or_eq_some_iff] at hhead
    rcases hhead with hhead | ⟨-, hhead⟩
    · exact h.uncommented hhead
    · exact hmark (by decide) (List.mem_of_mem_head? hhead)
  have hkey : trim (key.toList ++ gap) = key.toList := by
    rw [trim_append_blanks key.toList hgap, trim_eq_self h.bare]
  have hvalue : trim (' ' :: '"' :: (value.toList ++ ['"'])) = '"' :: (value.toList ++ ['"']) := by
    have hbare : Bare isBlank ('"' :: (value.toList ++ ['"'])) :=
      bare_cons_append (by decide) (by decide) value.toList
    have hspace : Blanks [' '] := by decide
    exact (trim_blanks_append hspace ('"' :: (value.toList ++ ['"']))).trans (trim_eq_self hbare)
  rw [ofText_eq_pair htrim hwhole huncommented (by simp [List.getLast?_cons]), hkey, hvalue,
    String.ofList_toList]

/-- A pair that is written is read back; its value may hold an equals sign and
blanks at its ends, as it stands in quotes. -/
theorem ofText_renderPair {key value : String} (hkey : Key key) (hvalue : Value value) :
    ofText (renderPair key value) = .pair key value := by
  have hquote : ∀ c ∈ ['"'], c == '"' := by simp
  have hunquote : unquote ('"' :: (value.toList ++ ['"'])) = value.toList :=
    dropEnds_eq hquote hvalue.bare hquote
  rw [ofText_renderPair_quoted hkey, hunquote, String.ofList_toList]

end Line

theorem Name.not_mem_renderHeader {name : String} (h : Name name) : '\n' ∉ renderHeader name := by
  simpa [renderHeader] using h.one

theorem Key.not_mem_renderPair {key value : String} (h : Key key) (hvalue : '\n' ∉ value.toList) :
    '\n' ∉ renderPair key value := by
  simpa [renderPair] using ⟨h.one, hvalue⟩

/-- Settings are read from the lines that count. -/
theorem read_eq (text : List Char) :
    read text = putAll {} (assignments none (significant Line.ofText .other text)) := by
  rw [significant, assignments_filter, ← addLines_eq]
  rfl

/-! ## Layouts -/

/-- The lines of pairs. -/
def pairLines (pairs : Pairs) : List Line :=
  pairs.map fun e => .pair e.1 e.2

/-- The lines of a block. -/
def Block.kinds (b : Block) : List Line :=
  .header b.name :: pairLines b.pairs

/-- Pairs assign in the place in which they stand. -/
theorem assignments_pairLines (place : Option String) (pairs : Pairs) (ls : List Line) :
    assignments place (pairLines pairs ++ ls) =
      (pairs.map fun e => ⟨place, e.1, e.2⟩) ++ assignments place ls := by
  induction pairs with
  | nil => rfl
  | cons e pairs ih => exact congrArg (⟨place, e.1, e.2⟩ :: ·) ih

theorem pairsAt_map (place other : Option String) (pairs : Pairs) :
    pairsAt place (pairs.map fun e => ⟨other, e.1, e.2⟩) = if other = place then pairs else [] := by
  by_cases h : other = place <;> simp [pairsAt, List.filter_map, Function.comp_def, h]

/-- Blocks assign to each section what stands in its blocks. -/
theorem pairsAt_blocks (place open? : Option String) (blocks : List Block) :
    pairsAt place (assignments open? (blocks.flatMap Block.kinds)) =
      (blocks.filter fun b => some b.name = place).flatMap Block.pairs := by
  induction blocks generalizing open? with
  | nil => rfl
  | cons b blocks ih =>
      have hblock : assignments open? ((b :: blocks).flatMap Block.kinds) =
          (b.pairs.map fun e => ⟨some b.name, e.1, e.2⟩) ++
            assignments (some b.name) (blocks.flatMap Block.kinds) :=
        assignments_pairLines (some b.name) b.pairs _
      rw [hblock, pairsAt_append, pairsAt_map, ih]
      by_cases h : some b.name = place <;> simp [h]

/-- Pairs of which each can be written. -/
def Plain (pairs : Pairs) : Prop :=
  ∀ e ∈ pairs, Key e.1 ∧ Value e.2

instance : DecidablePred Plain := fun pairs =>
  inferInstanceAs (Decidable (∀ e ∈ pairs, Key e.1 ∧ Value e.2))

/-- Pairs that are written one below the other are read back. -/
theorem Plain.map_ofText {pairs : Pairs} (h : Plain pairs) :
    (pairs.map fun (key, value) => renderPair key value).map Line.ofText = pairLines pairs := by
  rw [List.map_map]
  refine List.map_congr_left ?_
  rintro ⟨key, value⟩ he
  obtain ⟨hkey, hvalue⟩ := h (key, value) he
  rw [Function.comp_apply, Line.ofText_renderPair hkey hvalue]

namespace Layout

/-- A layout of which each line can be written. -/
structure Plain (l : Layout) : Prop where
  globals : Settings.Plain l.globals
  blocks : ∀ b ∈ l.blocks, Name b.name ∧ Settings.Plain b.pairs

/-- What a layout has in a place. -/
def pairsIn (l : Layout) : Option String → Pairs
  | none => l.globals
  | some name => (l.blocks.filter (fun b => b.name = name)).flatMap Block.pairs

/-- The last value of a key in a place. -/
def value? (l : Layout) : Option String → String → Option String
  | none => l.getGlobal?
  | some name => l.get? name

/-- The last value of a key is the one that counts. -/
theorem value?_eq (l : Layout) (place : Option String) (key : String) :
    l.value? place key = Table.get? key (l.pairsIn place).reverse := by
  rw [Table.get?_eq_find?]
  cases place <;> rfl

variable {l : Layout} (h : l.Plain)
include h

/-- The lines of a layout are its globals and its blocks, as the reader tells them
apart. -/
theorem Plain.map_lines :
    l.lines.map Line.ofText = pairLines l.globals ++ l.blocks.flatMap Block.kinds := by
  have hblock (b : Block) (hb : b ∈ l.blocks) :
      (renderHeader b.name :: b.pairs.map fun (key, value) => renderPair key value).map
        Line.ofText = b.kinds := by
    obtain ⟨hname, hpairs⟩ := h.blocks b hb
    rw [List.map_cons, hpairs.map_ofText, Line.ofText_renderHeader hname, Block.kinds]
  rw [lines, List.map_append, h.globals.map_ofText, List.map_flatMap, List.flatMap_congr hblock]

theorem Plain.not_mem_lines : ∀ line ∈ l.lines, '\n' ∉ line := by
  have hpairs {pairs : Pairs} (hplain : Settings.Plain pairs) :
      ∀ line ∈ pairs.map (fun e => renderPair e.1 e.2), '\n' ∉ line := by
    intro line hline
    obtain ⟨e, he, rfl⟩ := List.mem_map.mp hline
    exact (hplain e he).1.not_mem_renderPair (hplain e he).2.one
  intro line hline
  rcases List.mem_append.mp hline with hline | hline
  · exact hpairs h.globals line hline
  · obtain ⟨b, hb, hline⟩ := List.mem_flatMap.mp hline
    obtain ⟨hname, hplain⟩ := h.blocks b hb
    rcases List.mem_cons.mp hline with rfl | hline
    · exact hname.not_mem_renderHeader
    · exact hpairs hplain line hline

/-- A layout assigns in each place what it has there. -/
theorem Plain.pairsAt_render (place : Option String) :
    pairsAt place (assignments none (significant Line.ofText .other l.render)) =
      l.pairsIn place := by
  rw [render, significant_unlines Line.ofText_trims h.not_mem_lines, assignments_filter,
    h.map_lines, assignments_pairLines, pairsAt_append, pairsAt_map, pairsAt_blocks]
  cases place <;> simp [pairsIn]

/-- **The last value counts.**  Of a layout the last value of each key is read. -/
theorem Plain.value?_read (place : Option String) (key : String) :
    (read l.render).value? place key = l.value? place key := by
  have hnone : ({} : Settings).value? place key = none := by cases place <;> rfl
  rw [read_eq, value?_putAll, h.pairsAt_render, hnone, Option.or_none, value?_eq]

/-- The sections that are read are those that have pairs. -/
theorem Plain.isSome_read (name : String) :
    ((read l.render).sections.get? name).isSome = !(l.pairsIn (some name)).isEmpty := by
  rw [read_eq, isSome_putAll, h.pairsAt_render]
  exact Bool.or_false _

end Layout

/-! ## Settings -/

/-- Pairs that can be written as one, so that no key comes twice. -/
structure Distinct (pairs : Pairs) : Prop where
  nodup : pairs.keys.Nodup
  plain : Plain pairs

instance : DecidablePred Distinct := fun pairs =>
  decidable_of_iff (pairs.keys.Nodup ∧ Plain pairs)
    ⟨fun ⟨nodup, plain⟩ => ⟨nodup, plain⟩, fun h => ⟨h.nodup, h.plain⟩⟩

/-- Settings that can be written. -/
structure Writable (s : Settings) : Prop where
  globals : Distinct s.globals
  names : s.sections.keys.Nodup
  sections : ∀ e ∈ s.sections, Name e.1 ∧ e.2 ≠ [] ∧ Distinct e.2

namespace Layout

/-- A layout has what the settings have, in any order and in any number of blocks. -/
structure Writes (l : Layout) (s : Settings) : Prop where
  globals : l.globals.Perm s.globals
  names : ∀ b ∈ l.blocks, b.name ∈ s.sections.keys
  sections : ∀ e ∈ s.sections, (l.pairsIn (some e.1)).Perm e.2

variable {l : Layout} {s : Settings} (h : s.Writable) (hwrites : l.Writes s)
include h hwrites

/-- A layout of settings that can be written can be written. -/
theorem Writes.plain : l.Plain where
  globals e he := h.globals.plain e (hwrites.globals.mem_iff.mp he)
  blocks b hb := by
    obtain ⟨e, he, hname⟩ := List.mem_map.mp (hwrites.names b hb)
    obtain ⟨hplain, -, hpairs⟩ := h.sections e he
    refine ⟨hname ▸ hplain, fun pair hpair => hpairs.plain pair ?_⟩
    refine (hwrites.sections e he).mem_iff.mp (List.mem_flatMap.mpr ⟨b, ?_, hpair⟩)
    exact List.mem_filter.mpr ⟨hb, by simp [hname]⟩

/-- **What is written is read back.** -/
theorem Writes.agree_read : (read l.render).Agree s := by
  have hplain := hwrites.plain h
  have hnone (name : String) (hget : s.sections.get? name = none) : l.pairsIn (some name) = [] := by
    have hfilter : l.blocks.filter (fun b => b.name = name) = [] := by
      refine List.filter_eq_nil_iff.mpr fun b hb hname => ?_
      rw [← of_decide_eq_true hname] at hget
      exact Table.get?_eq_none_iff.mp hget (hwrites.names b hb)
    rw [pairsIn, hfilter]
    rfl
  refine ⟨fun name => ?_, fun place key => ?_⟩
  · rw [hplain.isSome_read]
    cases hget : s.sections.get? name with
    | none => simp [hnone name hget]
    | some pairs =>
        have hmem := Table.mem_of_get? hget
        have hperm := hwrites.sections _ hmem
        have hne : l.pairsIn (some name) ≠ [] := fun hempty =>
          (h.sections _ hmem).2.1 (List.nil_perm.mp (hempty ▸ hperm))
        simpa using hne
  · rw [hplain.value?_read, value?_eq]
    cases place with
    | none =>
        exact Table.get?_of_perm h.globals.nodup ((List.reverse_perm _).trans hwrites.globals) key
    | some name =>
        cases hget : s.sections.get? name with
        | none => simp [hnone name hget, Settings.value?, Settings.get?, hget, Table.get?]
        | some pairs =>
            have hmem := Table.mem_of_get? hget
            have hperm := (List.reverse_perm _).trans (hwrites.sections _ hmem)
            simpa [Settings.value?, Settings.get?, hget] using
              Table.get?_of_perm (h.sections _ hmem).2.2.nodup hperm key

end Layout

/-! ## Padding -/

/-- The place that is open behind a text. -/
def openPlace (text : List Char) : Option String :=
  placeAfter none ((lines text).map Line.ofText)

/-- Lines that are passed over do not matter to the place that is open. -/
theorem openPlace_eq (text : List Char) :
    openPlace text = placeAfter none (significant Line.ofText .other text) := by
  rw [significant, placeAfter_filter]
  rfl

/-- One change of a text that makes no difference to settings. -/
inductive Padded : List Char → List Char → Prop
  /-- It is laid out in another way, or has another line that is passed over. -/
  | relaid {text text' : List Char} (h : Relaid PassedOver text text') : Padded text text'
  /-- A key has a value that it is given again in the same place. -/
  | again (before mid behind : List (List Char)) {line line' : List Char} {key value other : String}
      (one : '\n' ∉ line) (one' : '\n' ∉ line') (first : Line.ofText line = .pair key other)
      (last : Line.ofText line' = .pair key value)
      (same : openPlace (ofPieces (before ++ mid)) = openPlace (ofPieces before)) :
      Padded (ofPieces (before ++ (mid ++ line' :: behind)))
        (ofPieces (before ++ line :: (mid ++ line' :: behind)))

/-- **One change** that makes no difference to settings leaves them in agreement.
-/
theorem Padded.agree {text text' : List Char} (h : Padded text text') :
    (read text').Agree (read text) := by
  cases h with
  | relaid h =>
      rw [read_eq, read_eq, h.significant_eq Line.ofText_trims fun _ => Line.ofText_of_passedOver]
      exact .refl _
  | again before mid behind one one' first last same =>
      rw [openPlace_eq, openPlace_eq, significant_ofPieces Line.ofText_trims,
        significant_ofPieces Line.ofText_trims, List.flatMap_append, placeAfter_append] at same
      have hkept (key value : String) :
          [Line.pair key value].filter (· ≠ .other) = [.pair key value] := rfl
      rw [read_eq, read_eq, significant_ofPieces Line.ofText_trims,
        significant_ofPieces Line.ofText_trims]
      -- both pairs are assigned in the place that is open behind `before`
      simp only [List.flatMap_append, List.flatMap_cons, significant_line Line.ofText_trims one,
        significant_line Line.ofText_trims one', first, last, hkept, List.singleton_append,
        assignments_append, assignments, Line.assignments, Line.placeAfter, same]
      exact agree_putAll_again _ _ _ _ _ _ _

/-- Any number of such changes, made or taken back, leave settings in agreement.
-/
theorem agree_of_eqvGen {text text' : List Char} (h : Relation.EqvGen Padded text text') :
    (read text).Agree (read text') := by
  induction h with
  | rel _ _ hpadded => exact hpadded.agree.symm
  | refl _ => exact .refl _
  | symm _ _ _ ih => exact ih.symm
  | trans _ _ _ _ _ ih ih' => exact ih.trans ih'

/-- **Settings.**  Settings are read back from each text that has them, in whatever order they
are written and in however many blocks; and no text is read in another way for lines that
are passed over or for values that are assigned again later. -/
theorem parse_restores :
    (∀ (s : Settings) (l : Layout), s.Writable → l.Writes s → ∀ text : String,
      Relation.EqvGen Padded l.render text.toList → (parse text).Agree s) ∧
    ∀ text text' : String, Relation.EqvGen Padded text.toList text'.toList →
      (parse text).Agree (parse text') := by
  refine ⟨fun s l h hwrites text htext => ?_, fun text text' => agree_of_eqvGen⟩
  exact (agree_of_eqvGen htext).symm.trans (hwrites.agree_read h)

/-- A section in two blocks, a comment, and a value that is given again where the section
is opened again. -/
theorem parse_restores_reopened :
    let s : Settings :=
      { globals := [("name", "a = [b]"), ("mode", "\t")]
        sections := [("Unpacker", [("tolerance", "16"), ("capacity", "")]),
          ("Logging", [("path", "/tmp")])] }
    let l : Layout :=
      { globals := [("mode", "\t"), ("name", "a = [b]")]
        blocks := [⟨"Unpacker", [("capacity", "")]⟩, ⟨"Logging", [("path", "/tmp")]⟩,
          ⟨"Unpacker", [("tolerance", "16")]⟩] }
    let before := ["mode = \"\t\"".toList, "name = \"a = [b]\"".toList, "[Unpacker]".toList,
      "capacity = \"\"".toList]
    let mid := ["[Logging]".toList, "path = \"/tmp\"".toList, "[Unpacker]".toList]
    let first := "tolerance = \"8\"".toList
    let last := "tolerance = \"16\"".toList
    let text := String.ofList (ofPieces (before ++ " # logs".toList :: first :: (mid ++ last :: [[]])))
    l.render = ofPieces (before ++ (mid ++ last :: [[]])) ∧ (parse text).Agree s ∧
      (parse (String.ofList l.render)).Agree (parse text) := by
  intro s l before mid first last text
  have hrender : l.render = ofPieces (before ++ (mid ++ last :: [[]])) := by decide +kernel
  have hwritable : s.Writable := ⟨by decide +kernel, by decide +kernel, by decide +kernel⟩
  have hwrites : l.Writes s := ⟨by decide, by decide, by decide⟩
  have hfirst : Line.ofText first = .pair "tolerance" "8" := by decide +kernel
  have hlast : Line.ofText last = .pair "tolerance" "16" := by decide +kernel
  have hagain : Padded (ofPieces (before ++ (mid ++ last :: [[]])))
      (ofPieces (before ++ first :: (mid ++ last :: [[]]))) :=
    .again before mid [[]] (by decide) (by decide) hfirst hlast (by decide +kernel)
  have hcomment : Padded (ofPieces (before ++ first :: (mid ++ last :: [[]])))
      (ofPieces (before ++ " # logs".toList :: first :: (mid ++ last :: [[]]))) :=
    .relaid (.insert before _ (by decide) (.inr (.inl (by decide))))
  have hpadded : Relation.EqvGen Padded l.render text.toList := by
    rw [hrender, String.toList_ofList]
    exact .trans _ _ _ (.rel _ _ hagain) (.rel _ _ hcomment)
  have hplain : Relation.EqvGen Padded (String.ofList l.render).toList text.toList := by
    rwa [String.toList_ofList]
  exact ⟨hrender, parse_restores.1 s l hwritable hwrites text hpadded,
    parse_restores.2 (String.ofList l.render) text hplain⟩

end RtpReassembly.Settings
