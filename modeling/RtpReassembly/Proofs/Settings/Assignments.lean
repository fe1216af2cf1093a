import RtpReassembly.Settings
import RtpReassembly.Proofs.Tables

/-!
# What lines of settings assign

Read line by line, a text assigns values to keys, each in the section that is open
there or among the globals.  Of the assignments to one key in one place the last
counts, and a section is there if anything was assigned in it.

* `assignments` are those of a list of lines, and `addLines_eq` says that settings are
  read by making them in turn;
* `value?_put` and `value?_putAll`: a value is the last one that was assigned, or the one
  that was there before;
* `Agree` says that two settings are the same maps; `agree_putAll` that settings agree if
  the same values are the last ones.
-/

namespace RtpReassembly.Settings

/-- A value for a key, in a section or among the globals. -/
structure Assignment where
  place : Option String
  key : String
  value : String
  deriving DecidableEq, Repr

/-- The settings after assignments. -/
def putAll (s : Settings) (as : List Assignment) : Settings :=
  as.foldl (fun s a => s.put a.place a.key a.value) s

/-- The place that is open behind a line. -/
def Line.placeAfter (place : Option String) : Line → Option String
  | .header name => some name
  | .pair _ _ => place
  | .other => place

/-- What a line assigns in a place. -/
def Line.assignments (place : Option String) : Line → List Assignment
  | .header _ => []
  | .pair key value => [⟨place, key, value⟩]
  | .other => []

/-- The place that is open behind lines. -/
def placeAfter (place : Option String) (ls : List Line) : Option String :=
  ls.foldl Line.placeAfter place

/-- What lines assign, of which the first stands in a place. -/
def assignments (place : Option String) : List Line → List Assignment
  | [] => []
  | line :: ls => line.assignments place ++ assignments (line.placeAfter place) ls

/-- What is assigned in a place. -/
def pairsAt (place : Option String) (as : List Assignment) : Pairs :=
  (as.filter (·.place = place)).map fun a => (a.key, a.value)

/-- The value of a key in a place. -/
def value? (s : Settings) : Option String → String → Option String
  | none => s.getGlobal?
  | some name => s.get? name

/-- The same sections, and everywhere the same values. -/
structure Agree (s t : Settings) : Prop where
  sections : ∀ name, (s.sections.get? name).isSome = (t.sections.get? name).isSome
  values : ∀ place key, s.value? place key = t.value? place key

theorem Agree.refl (s : Settings) : s.Agree s :=
  ⟨fun _ => rfl, fun _ _ => rfl⟩

theorem Agree.symm {s t : Settings} (h : s.Agree t) : t.Agree s :=
  ⟨fun name => (h.sections name).symm, fun place key => (h.values place key).symm⟩

theorem Agree.trans {s t u : Settings} (h : s.Agree t) (h' : t.Agree u) : s.Agree u :=
  ⟨fun name => (h.sections name).trans (h'.sections name),
    fun place key => (h.values place key).trans (h'.values place key)⟩

theorem putAll_cons (s : Settings) (a : Assignment) (as : List Assignment) :
    s.putAll (a :: as) = (s.put a.place a.key a.value).putAll as := rfl

/-! ## Lines -/

/-- Settings are read by making the assignments of the lines. -/
theorem addLines_eq (s : Settings) (place : Option String) (ls : List Line) :
    addLines s place ls = s.putAll (assignments place ls) := by
  induction ls generalizing s place with
  | nil => rfl
  | cons line ls ih =>
      cases line with
      | header name => exact ih s (some name)
      | pair key value => exact ih (s.put place key value) place
      | other => exact ih s place

/-- The lines behind others assign in the place that is open there. -/
theorem assignments_append (place : Option String) (ls ls' : List Line) :
    assignments place (ls ++ ls') =
      assignments place ls ++ assignments (placeAfter place ls) ls' := by
  induction ls generalizing place with
  | nil => rfl
  | cons line ls ih =>
      rw [List.cons_append, assignments, ih, assignments, List.append_assoc]
      rfl

theorem placeAfter_append (place : Option String) (ls ls' : List Line) :
    placeAfter place (ls ++ ls') = placeAfter (placeAfter place ls) ls' :=
  List.foldl_append

/-- A line that is passed over assigns nothing. -/
theorem assignments_filter (place : Option String) (ls : List Line) :
    assignments place (ls.filter (· ≠ .other)) = assignments place ls := by
  induction ls generalizing place with
  | nil => rfl
  | cons line ls ih =>
      by_cases hline : line = .other
      · subst hline
        exact ih place
      · rw [List.filter_cons_of_pos (by simpa using hline), assignments, assignments, ih]

theorem placeAfter_filter (place : Option String) (ls : List Line) :
    placeAfter place (ls.filter (· ≠ .other)) = placeAfter place ls := by
  induction ls generalizing place with
  | nil => rfl
  | cons line ls ih =>
      by_cases hline : line = .other
      · subst hline
        exact ih place
      · rw [List.filter_cons_of_pos (by simpa using hline)]
        exact ih (line.placeAfter place)

/-! ## Assignments -/

/-- A pair that is put in changes the value of its key in its place and nothing else. -/
theorem value?_put (s : Settings) (place other : Option String) (key value key' : String) :
    (s.put place key value).value? other key' =
      if place = other ∧ key = key' then some value else s.value? other key' := by
  cases place with
  | none =>
      cases other with
      | none => simp [value?, getGlobal?, put, Table.get?_put]
      | some name => simp [value?, get?, put]
  | some name =>
      cases other with
      | none => simp [value?, getGlobal?, put]
      | some name' =>
          by_cases hname : name = name'
          · subst hname
            cases hpairs : s.sections.get? name <;>
              simp [value?, get?, put, Table.get?_put, hpairs, Table.get?]
          · simp [value?, get?, put, Table.get?_put, hname]

/-- A section is there once something was put in. -/
theorem isSome_put (s : Settings) (place : Option String) (key value name : String) :
    ((s.put place key value).sections.get? name).isSome =
      (decide (place = some name) || (s.sections.get? name).isSome) := by
  cases place with
  | none => simp [put]
  | some other =>
      by_cases hname : other = name
      · simp [put, Table.get?_put, hname]
      · simp [put, Table.get?_put, hname]

theorem pairsAt_append (place : Option String) (as as' : List Assignment) :
    pairsAt place (as ++ as') = pairsAt place as ++ pairsAt place as' := by
  simp [pairsAt]

theorem pairsAt_cons (place : Option String) (a : Assignment) (as : List Assignment) :
    pairsAt place (a :: as) =
      (if a.place = place then [(a.key, a.value)] else []) ++ pairsAt place as := by
  by_cases h : a.place = place <;> simp [pairsAt, h]

/-- **The last assignment counts.**  A value is the last one that was assigned to its key in
its place, or else the one that was there before. -/
theorem value?_putAll (s : Settings) (as : List Assignment) (place : Option String) (key : String) :
    (s.putAll as).value? place key =
      (Table.get? key (pairsAt place as).reverse).or (s.value? place key) := by
  induction as generalizing s with
  | nil => rfl
  | cons a as ih =>
      rw [putAll_cons, ih, value?_put, pairsAt_cons, List.reverse_append, Table.get?_append,
        Option.or_assoc]
      by_cases hplace : a.place = place
      · by_cases hkey : a.key = key <;> simp [hplace, hkey, Table.get?]
      · simp [hplace, Table.get?]

/-- A section is there after assignments if one was made in it, or if it was
there. -/
theorem isSome_putAll (s : Settings) (as : List Assignment) (name : String) :
    ((s.putAll as).sections.get? name).isSome =
      (!(pairsAt (some name) as).isEmpty || (s.sections.get? name).isSome) := by
  induction as generalizing s with
  | nil => rfl
  | cons a as ih =>
      rw [putAll_cons, ih, isSome_put, pairsAt_cons]
      by_cases hplace : a.place = some name <;> simp [hplace]

/-- Settings that are read agree if anything is assigned in the same sections and the last
assignments are the same. -/
theorem agree_putAll {as as' : List Assignment}
    (hplaces : ∀ place, pairsAt place as = [] ↔ pairsAt place as' = [])
    (hlast : ∀ place key, Table.get? key (pairsAt place as).reverse =
      Table.get? key (pairsAt place as').reverse) :
    (putAll {} as).Agree (putAll {} as') where
  sections name := by
    have hempty : (pairsAt (some name) as).isEmpty = (pairsAt (some name) as').isEmpty := by
      rw [Bool.eq_iff_iff, List.isEmpty_iff, List.isEmpty_iff, hplaces]
    rw [isSome_putAll, isSome_putAll, hempty]
  values place key := by rw [value?_putAll, value?_putAll, hlast]

/-- An assignment makes no difference if its key is assigned again in its place. -/
theorem agree_putAll_again (before mid behind : List Assignment) (place : Option String)
    (key value other : String) :
    (putAll {} (before ++ ⟨place, key, other⟩ :: (mid ++ ⟨place, key, value⟩ :: behind))).Agree
      (putAll {} (before ++ (mid ++ ⟨place, key, value⟩ :: behind))) := by
  refine agree_putAll (fun place' => ?_) fun place' key' => ?_
  · by_cases hplace : place = place' <;> simp [pairsAt_append, pairsAt_cons, hplace]
  · -- looked up from the end, the key is found before the first assignment is reached
    by_cases hplace : place = place'
    · by_cases hkey : key = key' <;>
        simp [pairsAt_append, pairsAt_cons, hplace, hkey, Table.get?_append, Table.get?]
    · simp [pairsAt_append, pairsAt_cons, hplace]

end RtpReassembly.Settings
