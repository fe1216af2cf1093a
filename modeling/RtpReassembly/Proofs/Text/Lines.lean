import RtpReassembly.Text.Line
import RtpReassembly.Proofs.Text.Words

/-!
# Lines that count

A reader of lines that trims them first, and passes over some of them, does not see
how a text is laid out: the ends of its lines, the blanks around them and the lines
passed over make no difference.

* `ofPieces` puts line feeds between pieces of a text;
* `Trims kind other` says that blanks around a line do not change its kind, and that
  an empty line is passed over; `significant kind other text` are the kinds of the
  lines of a text that are not;
* `significant_append` and `significant_line` give them piece by piece;
* `Relaid passed` is one change of the layout of a text, and `Relaid.significant_eq`
  says that it changes nothing that counts.
-/

namespace RtpReassembly.Text

/-- The text of pieces with a line feed between each two. -/
def ofPieces (pieces : List (List Char)) : List Char :=
  ['\n'].intercalate pieces

@[simp] theorem ofPieces_singleton (piece : List Char) : ofPieces [piece] = piece :=
  List.intercalate_singleton

theorem ofPieces_cons {pieces : List (List Char)} (h : pieces ≠ []) (piece : List Char) :
    ofPieces (piece :: pieces) = piece ++ '\n' :: ofPieces pieces := by
  rw [ofPieces, List.intercalate_cons_of_ne_nil h, List.append_assoc]
  rfl

/-- Between line feeds there is none. -/
theorem not_mem_of_mem_splitOn {text piece : List Char} (h : piece ∈ text.splitOn '\n') :
    '\n' ∉ piece := by
  induction text generalizing piece with
  | nil => simp_all
  | cons c text ih =>
      obtain ⟨first, others, hpieces⟩ :=
        List.exists_cons_of_ne_nil (List.splitOn_ne_nil '\n' text)
      rw [hpieces] at ih
      rw [List.splitOn_cons_eq_if_modifyHead, hpieces] at h
      split at h
      · rcases List.mem_cons.mp h with rfl | h
        · simp
        · exact ih h
      · rename_i hc
        rw [List.modifyHead_cons] at h
        rcases List.mem_cons.mp h with rfl | h
        · rw [List.mem_cons, not_or]
          exact ⟨fun heq => hc (by simp [← heq]), ih List.mem_cons_self⟩
        · exact ih (List.mem_cons_of_mem first h)

/-- A carriage return at the end of a line is a blank, and trimmed anyway. -/
theorem trim_dropReturn (line : List Char) : trim (dropReturn line) = trim line := by
  unfold dropReturn
  split
  · rename_i hlast
    obtain ⟨init, rfl⟩ := List.getLast?_eq_some_iff.mp hlast
    have hblank : Blanks ['\r'] := by simp [Blanks, isBlank]
    rw [List.dropLast_concat, trim_append_blanks init hblank]
  · rfl

/-- Blanks around a line do not change its kind, and an empty line is passed over. -/
structure Trims {κ : Type} (kind : List Char → κ) (other : κ) : Prop where
  trim : ∀ line, kind (Text.trim line) = kind line
  empty : kind [] = other

/-- A line with blanks around it is of the same kind. -/
theorem Trims.kind_append {κ : Type} {kind : List Char → κ} {other : κ} (h : Trims kind other)
    {front line back : List Char} (hfront : Blanks front) (hback : Blanks back) :
    kind (front ++ (line ++ back)) = kind line := by
  rw [← h.trim, trim_append hfront hback, h.trim]

section

variable {κ : Type} [DecidableEq κ] {kind : List Char → κ} {other : κ}

/-- The kinds of the lines of a text that are not passed over. -/
def significant (kind : List Char → κ) (other : κ) (text : List Char) : List κ :=
  ((lines text).map kind).filter (· ≠ other)

/-- How lines end makes no difference: the pieces between line feeds count like them. -/
theorem significant_eq_pieces (h : Trims kind other) (text : List Char) :
    significant kind other text = ((text.splitOn '\n').map kind).filter (· ≠ other) := by
  have hreturn (piece : List Char) : kind (dropReturn piece) = kind piece := by
    rw [← h.trim, trim_dropReturn, h.trim]
  unfold significant lines
  induction text.splitOn '\n' with
  | nil => rfl
  | cons piece pieces ih =>
      cases pieces with
      | nil => cases piece <;> simp [linesOfPieces, h.empty]
      | cons next rest => simp only [linesOfPieces, List.map_cons, hreturn, List.filter_cons, ih]

/-- A kind that counts is that of some line. -/
theorem exists_of_mem_significant (h : Trims kind other) {text : List Char} {k : κ}
    (hk : k ∈ significant kind other text) : ∃ line, '\n' ∉ line ∧ kind line = k := by
  rw [significant_eq_pieces h] at hk
  obtain ⟨line, hline, rfl⟩ := List.mem_map.mp (List.mem_filter.mp hk).1
  exact ⟨line, not_mem_of_mem_splitOn hline, rfl⟩

/-- Lines on both sides of a line feed are looked at apart. -/
theorem significant_append (h : Trims kind other) (front back : List Char) :
    significant kind other (front ++ '\n' :: back) =
      significant kind other front ++ significant kind other back := by
  simp only [significant_eq_pieces h, List.splitOn_append_cons_self, List.map_append,
    List.filter_append]

/-- A text of one line counts as that line does. -/
theorem significant_line (h : Trims kind other) {line : List Char} (one : '\n' ∉ line) :
    significant kind other line = [kind line].filter (· ≠ other) := by
  rw [significant_eq_pieces h, List.splitOn_eq_singleton one]
  rfl

/-- What counts in a text is what counts in each of its pieces, whatever these
are. -/
theorem significant_ofPieces (h : Trims kind other) (pieces : List (List Char)) :
    significant kind other (ofPieces pieces) = pieces.flatMap (significant kind other) := by
  induction pieces with
  | nil => rfl
  | cons piece pieces ih =>
      by_cases hne : pieces = []
      · simp [hne]
      · rw [ofPieces_cons hne, significant_append h, ih, List.flatMap_cons]

/-- Lines that were written count as they were. -/
theorem significant_unlines (h : Trims kind other) {ls : List (List Char)}
    (one : ∀ line ∈ ls, '\n' ∉ line) :
    significant kind other (unlines ls) = (ls.map kind).filter (· ≠ other) := by
  induction ls with
  | nil => rfl
  | cons line ls ih =>
      obtain ⟨hline, hls⟩ := List.forall_mem_cons.mp one
      have hunlines : unlines (line :: ls) = line ++ '\n' :: unlines ls := by simp [unlines]
      rw [hunlines, significant_append h, significant_line h hline, ih hls, List.map_cons,
        ← List.filter_append]
      rfl

end

/-! ## Layout -/

/-- One change of the layout of a text in which `passed` lines are passed over. -/
inductive Relaid (passed : List Char → Prop) : List Char → List Char → Prop
  /-- A line that is passed over stands somewhere between the others. -/
  | insert (before behind : List (List Char)) {line : List Char} (one : '\n' ∉ line)
      (passing : passed line) :
      Relaid passed (ofPieces (before ++ behind)) (ofPieces (before ++ line :: behind))
  /-- A line feed has a carriage return in front of it. -/
  | lineEnd (before behind : List (List Char)) {line : List Char} (one : '\n' ∉ line)
      (next : behind ≠ []) :
      Relaid passed (ofPieces (before ++ line :: behind))
        (ofPieces (before ++ (line ++ ['\r']) :: behind))
  /-- A line has blanks around it. -/
  | blanks (before behind : List (List Char)) (front line back : List Char)
      (one : '\n' ∉ front ++ (line ++ back)) (hfront : Blanks front) (hback : Blanks back) :
      Relaid passed (ofPieces (before ++ line :: behind))
        (ofPieces (before ++ (front ++ (line ++ back)) :: behind))

/-- **Layout.**  The layout of a text changes nothing that counts. -/
theorem Relaid.significant_eq {κ : Type} [DecidableEq κ] {kind : List Char → κ} {other : κ}
    (h : Trims kind other) {passed : List Char → Prop}
    (hpassed : ∀ line, passed line → kind line = other) {text text' : List Char}
    (hrelaid : Relaid passed text text') :
    significant kind other text = significant kind other text' := by
  -- where one line stands for another, the kinds of these two decide
  have hline {before behind : List (List Char)} {line line' : List Char}
      (hsame : significant kind other line = significant kind other line') :
      significant kind other (ofPieces (before ++ line :: behind)) =
        significant kind other (ofPieces (before ++ line' :: behind)) := by
    simp only [significant_ofPieces h, List.flatMap_append, List.flatMap_cons, hsame]
  cases hrelaid with
  | insert before behind one passing =>
      simp [significant_ofPieces h, significant_line h one, hpassed _ passing]
  | @lineEnd before behind line one _ =>
      have hreturn : kind (line ++ ['\r']) = kind line := by
        rw [← h.trim, trim_append_blanks line (by simp [Blanks, isBlank]), h.trim]
      refine hline ?_
      rw [significant_line h one, significant_line h (by simpa using one), hreturn]
  | blanks before behind front line back one hfront hback =>
      have hone : '\n' ∉ line := fun hm => one (by simp [hm])
      refine hline ?_
      rw [significant_line h one, significant_line h hone, h.kind_append hfront hback]

end RtpReassembly.Text
