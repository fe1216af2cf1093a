import RtpReassembly.Text.Blank
import RtpReassembly.Text.Line
import Mathlib.Data.List.TakeWhile

/-!
# Words and ends

What trimming and splitting do, said of the text that they are applied to.

* `Bare p text`: neither end of a text is a character of `p`; `dropEnds_eq` and
  `exists_dropEnds` say that dropping such characters from both ends leaves the one
  bare text between them, and trimming drops blanks;
* `Splits text ws`: `ws` stand in a text, with blanks between them; `words_eq_iff`
  says that they are its words;
* `cutAt_eq_iff` and `afterHead?_eq_some_iff` put a text that was cut together again.
-/

namespace RtpReassembly.Text

/-! ## Ends -/

section

variable {p : Char → Bool} {front text back : List Char}

/-- Neither the first nor the last character is one of `p`. -/
def Bare (p : Char → Bool) (text : List Char) : Prop :=
  (∀ c ∈ text.head?, p c = false) ∧ ∀ c ∈ text.getLast?, p c = false

instance : DecidablePred (Bare p) := fun text =>
  @instDecidableAnd _ _ (Option.decidableForallMem text.head?)
    (Option.decidableForallMem text.getLast?)

/-- The text without the characters of `p` at either end. -/
def dropEnds (p : Char → Bool) (text : List Char) : List Char :=
  dropTailWhile p (text.dropWhile p)

theorem dropWhile_eq_self (h : ∀ c ∈ text.head?, p c = false) : text.dropWhile p = text := by
  cases text with
  | nil => rfl
  | cons c text => exact List.dropWhile_cons_of_neg (by simpa using h)

/-- Nothing stays of a text that can be dropped as a whole. -/
theorem dropEnds_of_all (h : ∀ c ∈ text, p c) : dropEnds p text = [] := by
  have hnil : text.dropWhile p = [] := by
    have hdrop : (text ++ []).dropWhile p = [].dropWhile p := List.dropWhile_append_of_pos h
    simpa using hdrop
  rw [dropEnds, hnil]
  rfl

/-- What is bare between characters of `p` is what is left. -/
theorem dropEnds_eq (hfront : ∀ c ∈ front, p c) (bare : Bare p text) (hback : ∀ c ∈ back, p c) :
    dropEnds p (front ++ (text ++ back)) = text := by
  by_cases hne : text = []
  · subst hne
    exact dropEnds_of_all fun c hc => (List.mem_append.mp hc).elim (hfront c) (hback c)
  · have hfirst : (text ++ back).dropWhile p = text ++ back :=
      dropWhile_eq_self (by
        obtain ⟨c, rest, rfl⟩ := List.exists_cons_of_ne_nil hne
        exact bare.1)
    have hlast : text.reverse.dropWhile p = text.reverse :=
      dropWhile_eq_self (by rw [List.head?_reverse]; exact bare.2)
    rw [dropEnds, List.dropWhile_append_of_pos hfront, hfirst, dropTailWhile,
      List.reverse_append, List.dropWhile_append_of_pos (by simpa using hback), hlast,
      List.reverse_reverse]

/-- What stays begins with a character that does. -/
theorem head?_dropWhile (p : Char → Bool) (text : List Char) :
    ∀ c ∈ (text.dropWhile p).head?, p c = false := by
  intro c hc
  have hstop := List.head?_dropWhile_not p text
  rwa [hc] at hstop

/-- What is left is bare, and only characters of `p` were dropped. -/
theorem exists_dropEnds (p : Char → Bool) (text : List Char) :
    ∃ front back, (∀ c ∈ front, p c) ∧ (∀ c ∈ back, p c) ∧ Bare p (dropEnds p text) ∧
      text = front ++ (dropEnds p text ++ back) := by
  have hparts : dropEnds p text ++ ((text.dropWhile p).reverse.takeWhile p).reverse =
      text.dropWhile p := by
    rw [dropEnds, dropTailWhile, ← List.reverse_append, List.takeWhile_append_dropWhile,
      List.reverse_reverse]
  refine ⟨text.takeWhile p, ((text.dropWhile p).reverse.takeWhile p).reverse,
    fun c => List.mem_takeWhile_imp, fun c hc => List.mem_takeWhile_imp (List.mem_reverse.mp hc),
    ⟨fun c hc => ?_, fun c hc => ?_⟩, ?_⟩
  · refine head?_dropWhile p text c ?_
    rw [← hparts, List.head?_append, hc]
    rfl
  · rw [dropEnds, dropTailWhile, List.getLast?_reverse] at hc
    exact head?_dropWhile p _ c hc
  · rw [hparts, List.takeWhile_append_dropWhile]

/-- Characters of `p` at the ends make no difference. -/
theorem dropEnds_append (hfront : ∀ c ∈ front, p c) (hback : ∀ c ∈ back, p c) :
    dropEnds p (front ++ (text ++ back)) = dropEnds p text := by
  obtain ⟨front', back', hfront', hback', bare, htext⟩ := exists_dropEnds p text
  generalize dropEnds p text = inner at bare htext ⊢
  subst htext
  have hparts : front ++ (front' ++ (inner ++ back') ++ back) =
      (front ++ front') ++ (inner ++ (back' ++ back)) := by simp
  rw [hparts]
  exact dropEnds_eq (List.forall_mem_append.mpr ⟨hfront, hfront'⟩) bare
    (List.forall_mem_append.mpr ⟨hback', hback⟩)

/-- A bare text stays as it is. -/
theorem dropEnds_eq_self (bare : Bare p text) : dropEnds p text = text := by
  have hends : dropEnds p ([] ++ (text ++ [])) = text := dropEnds_eq (by simp) bare (by simp)
  simpa using hends

/-- A text is bare if its first part is, and its last character is none of `p` either. -/
theorem bare_append (bare : Bare p front) (hne : front ≠ [])
    (hlast : ∀ c ∈ back.getLast?, p c = false) : Bare p (front ++ back) := by
  obtain ⟨hfirst, hend⟩ := bare
  refine ⟨fun c hc => hfirst c ?_, fun c hc => ?_⟩
  · obtain ⟨d, rest, rfl⟩ := List.exists_cons_of_ne_nil hne
    exact hc
  · rw [List.getLast?_append] at hc
    cases hback : back.getLast? with
    | none => exact hend c (by simpa [hback] using hc)
    | some d => exact hlast c (by simpa [hback] using hc)

/-- A text between two characters that stay is bare. -/
theorem bare_cons_append {c d : Char} (hc : p c = false) (hd : p d = false) (text : List Char) :
    Bare p (c :: (text ++ [d])) := by
  rw [← List.cons_append]
  exact ⟨by simpa using hc, by rw [List.getLast?_concat]; simpa using hd⟩

/-- What stays is bare. -/
theorem bare_dropEnds (p : Char → Bool) (text : List Char) : Bare p (dropEnds p text) := by
  obtain ⟨-, -, -, -, bare, -⟩ := exists_dropEnds p text
  exact bare

end

/-! ## Blanks and words -/

/-- A text of blanks only. -/
def Blanks (text : List Char) : Prop :=
  ∀ c ∈ text, isBlank c

instance : DecidablePred Blanks :=
  List.decidableBAll (fun c => isBlank c = true)

/-- A text of one or more characters none of which is a blank. -/
def Word (text : List Char) : Prop :=
  text ≠ [] ∧ ∀ c ∈ text, isBlank c = false

/-- `ws` are the longest stretches without a blank in a text, in order. -/
inductive Splits : List Char → List (List Char) → Prop
  | nil {text : List Char} (blank : Blanks text) : Splits text []
  | cons (gap w : List Char) {rest : List Char} {ws : List (List Char)} (blank : Blanks gap)
      (word : Word w) (apart : ∀ c ∈ rest.head?, isBlank c) (tail : Splits rest ws) :
      Splits (gap ++ (w ++ rest)) (w :: ws)

variable {front text back w : List Char} {ws : List (List Char)}

/-- Blanks on both sides of a text make no difference to what is trimmed. -/
theorem trim_append (hfront : Blanks front) (hback : Blanks back) :
    trim (front ++ (text ++ back)) = trim text :=
  dropEnds_append hfront hback

theorem trim_blanks_append (hfront : Blanks front) (text : List Char) :
    trim (front ++ text) = trim text := by
  have htrim : trim (front ++ (text ++ [])) = trim text := trim_append hfront (by simp [Blanks])
  rwa [List.append_nil] at htrim

theorem trim_append_blanks (text : List Char) (hback : Blanks back) :
    trim (text ++ back) = trim text := by
  have htrim : trim ([] ++ (text ++ back)) = trim text := trim_append (by simp [Blanks]) hback
  rwa [List.nil_append] at htrim

theorem trim_eq_self (bare : Bare isBlank text) : trim text = text :=
  dropEnds_eq_self bare

theorem bare_trim (text : List Char) : Bare isBlank (trim text) :=
  bare_dropEnds isBlank text

/-- Two texts that are bare are so on end, given that the first has a character.
-/
theorem trim_append_of_bare (hfront : Bare isBlank front) (hne : front ≠ [])
    (bare : Bare isBlank text) : trim (front ++ text) = front ++ text :=
  trim_eq_self (bare_append hfront hne bare.2)

/-- Trimming adds no character. -/
theorem mem_of_mem_trim {c : Char} (h : c ∈ trim text) : c ∈ text := by
  obtain ⟨front, back, -, -, -, htext⟩ := exists_dropEnds isBlank text
  rw [htext]
  exact List.mem_append_right _ (List.mem_append_left _ h)

theorem Word.bare (h : Word w) : Bare isBlank w :=
  ⟨fun c hc => h.2 c (List.mem_of_mem_head? hc), fun c hc => h.2 c (List.mem_of_getLast? hc)⟩

/-- A blank in front of a text is in none of its words. -/
theorem words_cons_blank {c : Char} (h : isBlank c) (text : List Char) :
    words (c :: text) = words text := by
  have hsplit := List.splitOnP_append_cons (p := isBlank) [] text h
  simp only [List.nil_append, List.splitOnP_nil] at hsplit
  simp [words, hsplit]

theorem words_blanks_append (h : Blanks front) (text : List Char) :
    words (front ++ text) = words text := by
  induction front with
  | nil => rfl
  | cons c front ih =>
      obtain ⟨hc, hfront⟩ := List.forall_mem_cons.mp h
      rw [List.cons_append, words_cons_blank hc, ih hfront]

/-- A word with a blank or nothing behind it is the first one. -/
theorem words_append (word : Word w) (apart : ∀ c ∈ text.head?, isBlank c) :
    words (w ++ text) = w :: words text := by
  cases text with
  | nil => simp [words, List.splitOnP_eq_singleton word.2, word.1]
  | cons c text =>
      have hc := apart c rfl
      rw [words_cons_blank hc]
      simp [words, List.splitOnP_append_cons_of_forall_mem word.2 c hc, word.1]

/-- **Words are told apart by blanks** in one way only, which is how the reader
does it. -/
theorem Splits.words_eq (h : Splits text ws) : words text = ws := by
  induction h with
  | nil blank =>
      have hblanks := words_blanks_append blank []
      rwa [List.append_nil] at hblanks
  | cons gap w blank word apart _ ih => rw [words_blanks_append blank, words_append word apart, ih]

/-- A text splits alike with a blank in front. -/
theorem Splits.cons_blank {c : Char} (hc : isBlank c) (h : Splits text ws) :
    Splits (c :: text) ws := by
  cases h with
  | nil blank => exact .nil (List.forall_mem_cons.mpr ⟨hc, blank⟩)
  | cons gap w blank word apart tail =>
      exact .cons (c :: gap) w (List.forall_mem_cons.mpr ⟨hc, blank⟩) word apart tail

/-- Every text splits into words: a character that is no blank begins a word or goes on
with the one behind it. -/
theorem exists_splits (text : List Char) : ∃ ws, Splits text ws := by
  induction text with
  | nil => exact ⟨[], .nil (by simp [Blanks])⟩
  | cons c text ih =>
      obtain ⟨ws, h⟩ := ih
      by_cases hc : isBlank c
      · exact ⟨ws, h.cons_blank hc⟩
      rw [Bool.not_eq_true] at hc
      by_cases apart : ∀ d ∈ text.head?, isBlank d
      · exact ⟨[c] :: ws, .cons [] [c] (by simp [Blanks]) (by simp [Word, hc])
          apart h⟩
      · cases h with
        | nil blank => exact absurd (fun d hd => blank d (List.mem_of_mem_head? hd)) apart
        | @cons gap w _ ws blank word stop tail =>
            cases gap with
            | nil =>
                exact ⟨(c :: w) :: ws, .cons [] (c :: w) (by simp [Blanks])
                  ⟨by simp, List.forall_mem_cons.mpr ⟨hc, word.2⟩⟩ stop tail⟩
            | cons d gap => exact absurd (by simpa using blank d List.mem_cons_self) apart

/-- **Words.**  The words of a text are the stretches that it splits into. -/
theorem words_eq_iff : words text = ws ↔ Splits text ws := by
  constructor
  · rintro rfl
    obtain ⟨ws, h⟩ := exists_splits text
    rwa [h.words_eq]
  · exact Splits.words_eq

/-- Words are words. -/
theorem Splits.word (h : Splits text ws) : ∀ w ∈ ws, Word w := by
  induction h with
  | nil _ => simp
  | cons _ _ _ word _ _ ih => exact List.forall_mem_cons.mpr ⟨word, ih⟩

/-- Words with one space in front of each. -/
def spaced (ws : List (List Char)) : List Char :=
  ws.flatMap (' ' :: ·)

theorem spaced_cons (w : List Char) (ws : List (List Char)) :
    spaced (w :: ws) = ' ' :: (w ++ spaced ws) := rfl

/-- Each word that is written has a space in front. -/
theorem blank_of_head?_spaced : ∀ c ∈ (spaced ws).head?, isBlank c := by
  cases ws <;> simp [spaced, isBlank]

/-- Words that are written with spaces are told apart again. -/
theorem splits_spaced (h : ∀ w ∈ ws, Word w) : Splits (spaced ws) ws := by
  induction ws with
  | nil => exact .nil (by simp [spaced, Blanks])
  | cons w ws ih =>
      obtain ⟨word, hws⟩ := List.forall_mem_cons.mp h
      exact .cons [' '] w (by simp [Blanks, isBlank]) word blank_of_head?_spaced (ih hws)

/-- Words with a space between each two are the words of the whole. -/
theorem splits_append_spaced (word : Word w) (h : ∀ w ∈ ws, Word w) :
    Splits (w ++ spaced ws) (w :: ws) :=
  .cons [] w (by simp [Blanks]) word blank_of_head?_spaced (splits_spaced h)

/-- There are no blanks around words with spaces between them. -/
theorem bare_append_spaced (word : Word w) (h : ∀ w ∈ ws, Word w) :
    Bare isBlank (w ++ spaced ws) := by
  induction ws generalizing w with
  | nil => simpa [spaced] using word.bare
  | cons v ws ih =>
      obtain ⟨hv, hws⟩ := List.forall_mem_cons.mp h
      obtain ⟨-, hlast⟩ := ih hv hws
      have hne : v ++ spaced ws ≠ [] := by simp [hv.1]
      refine bare_append word.bare word.1 fun c hc => hlast c ?_
      rwa [spaced_cons, List.getLast?_cons_of_ne_nil hne] at hc

theorem Word.not_mem {c : Char} (h : Word w) (hc : isBlank c) : c ∉ w :=
  fun hm => by simp [h.2 c hm] at hc

/-- The only blanks of words with spaces between them are the spaces. -/
theorem not_mem_append_spaced {c : Char} (word : Word w) (h : ∀ w ∈ ws, Word w)
    (hc : isBlank c) (hspace : c ≠ ' ') : c ∉ w ++ spaced ws := by
  simp only [spaced, List.mem_append, List.mem_flatMap, List.mem_cons, not_or, not_exists, not_and]
  exact ⟨word.not_mem hc, fun v hv => ⟨hspace, (h v hv).not_mem hc⟩⟩

/-! ## Cuts -/

/-- A text is cut at its first mark. -/
theorem cutAt_eq_iff {mark : Char} {before : List Char} {behind : Option (List Char)} :
    cutAt mark text = (before, behind) ↔
      mark ∉ before ∧ text = before ++ (behind.map (mark :: ·)).getD [] := by
  induction text generalizing before with
  | nil => cases before <;> cases behind <;> simp [cutAt]
  | cons c text ih =>
      by_cases hc : c = mark
      · subst hc
        cases before with
        | nil => cases behind <;> simp [cutAt]
        | cons d before => grind [cutAt]
      · cases before with
        | nil => cases behind <;> simp [cutAt, hc]
        | cons d before =>
            have ih' := @ih before
            grind [cutAt]

/-- A text begins with another one exactly if the rest is behind that. -/
theorem afterHead?_eq_some_iff {head rest : List Char} :
    afterHead? head text = some rest ↔ text = head ++ rest := by
  induction head generalizing text with
  | nil => simp [afterHead?]
  | cons h head ih =>
      cases text with
      | nil => simp [afterHead?]
      | cons c text =>
          by_cases hc : h = c
          · simp [afterHead?, hc, ih]
          · simp [afterHead?, hc, Ne.symm hc]

end RtpReassembly.Text
