import RtpReassembly.Table

/-!
# Tables as maps

`put` keeps every key once, and changes the value of one key only.

* `nodup_keys_put`: no key comes twice;
* `get?_append`, `get?_of_perm`: the first value of a key counts, and the order of the
  keys does not if none comes twice;
* `mapValues_put`, `mapValues_of_get?`: functions on values against `put`.
-/

namespace RtpReassembly

namespace Table

section

variable {κ α : Type} {t : Table κ α}

/-- The keys of a table. -/
def keys (t : Table κ α) : List κ :=
  t.map Prod.fst

/-- The table with a function applied to its values. -/
def mapValues (f : κ → α → α) (t : Table κ α) : Table κ α :=
  t.map fun e => (e.1, f e.1 e.2)

@[simp] theorem keys_mapValues (f : κ → α → α) (t : Table κ α) : (t.mapValues f).keys = t.keys := by
  simp [keys, mapValues]

/-- Nothing changes where nothing is to be changed. -/
theorem mapValues_of_forall {f : κ → α → α} (h : ∀ e ∈ t, f e.1 e.2 = e.2) :
    t.mapValues f = t := by
  refine (List.map_congr_left fun e he => ?_).trans (List.map_id t)
  rw [h e he]
  rfl

end

variable {κ α : Type} [DecidableEq κ] {t : Table κ α} {key : κ} {a : α}

theorem mem_keys_put {other : κ} : other ∈ (t.put key a).keys ↔ other = key ∨ other ∈ t.keys := by
  induction t with
  | nil => simp [put, keys]
  | cons e t ih =>
      by_cases h : e.1 = key
      · simp [put, keys, h]
      · simp only [put, keys, h, if_false, List.map_cons, List.mem_cons] at ih ⊢
        rw [ih, or_left_comm]

/-- Every key stands once. -/
theorem nodup_keys_put (h : t.keys.Nodup) (key : κ) (a : α) : (t.put key a).keys.Nodup := by
  induction t with
  | nil => simp [put, keys]
  | cons e t ih =>
      obtain ⟨hnew, hrest⟩ := List.nodup_cons.mp h
      by_cases hkey : e.1 = key
      · simpa [put, keys, hkey] using h
      · have hput : e.1 ∉ keys (put key a t) := by
          rw [mem_keys_put]
          exact not_or.mpr ⟨hkey, hnew⟩
        simp only [put, keys, hkey, if_false, List.map_cons] at hput ih ⊢
        exact List.nodup_cons.mpr ⟨hput, ih hrest⟩

/-- Each entry after a put is the new one or was there before. -/
theorem mem_put {e : κ × α} (h : e ∈ t.put key a) : e = (key, a) ∨ e ∈ t := by
  induction t with
  | nil => exact .inl (List.mem_singleton.mp h)
  | cons e' t ih =>
      by_cases hkey : e'.1 = key
      · simp only [put, hkey, if_true, List.mem_cons] at h ⊢
        exact h.imp_right .inr
      · simp only [put, hkey, if_false, List.mem_cons] at h ⊢
        rcases h with rfl | h
        · exact .inr (.inl rfl)
        · exact (ih h).imp_right .inr

/-- What is found at a key is an entry of the table. -/
theorem mem_of_get? (h : t.get? key = some a) : (key, a) ∈ t := by
  induction t with
  | nil => simp [get?] at h
  | cons e t ih =>
      by_cases hkey : e.1 = key
      · obtain rfl : e.2 = a := by simpa [get?, hkey] using h
        exact hkey ▸ List.mem_cons_self
      · exact List.mem_cons_of_mem e (ih (by simpa [get?, hkey] using h))

/-- Putting in what is there changes nothing. -/
theorem put_of_get? (h : t.get? key = some a) : t.put key a = t := by
  induction t with
  | nil => simp [get?] at h
  | cons e t ih =>
      by_cases hkey : e.1 = key
      · obtain rfl : e.2 = a := by simpa [get?, hkey] using h
        simp [put, hkey, Prod.ext_iff]
      · simp [put, hkey, ih (by simpa [get?, hkey] using h)]

/-- Nothing is found at exactly the keys that the table does not have. -/
theorem get?_eq_none_iff : t.get? key = none ↔ key ∉ t.keys := by
  induction t with
  | nil => simp [get?, keys]
  | cons e t ih =>
      by_cases hkey : e.1 = key
      · simp [get?, keys, hkey]
      · simpa [get?, keys, hkey, Ne.symm hkey] using ih

/-- The first entry with a key is the one that is found. -/
theorem get?_eq_find? (t : Table κ α) (key : κ) :
    t.get? key = (t.find? (fun e => e.1 = key)).map Prod.snd := by
  induction t with
  | nil => rfl
  | cons e t ih =>
      by_cases hkey : e.1 = key
      · simp [get?, hkey]
      · simpa [get?, hkey] using ih

theorem get?_append (t t' : Table κ α) (key : κ) :
    get? key (t ++ t') = (t.get? key).or (t'.get? key) := by
  induction t with
  | nil => rfl
  | cons e t ih =>
      by_cases hkey : e.1 = key
      · simp [get?, hkey]
      · simpa [get?, hkey] using ih

/-- Without a key twice, each entry is found at its key. -/
theorem get?_eq_some_iff (h : t.keys.Nodup) : t.get? key = some a ↔ (key, a) ∈ t := by
  refine ⟨mem_of_get?, fun hmem => ?_⟩
  induction t with
  | nil => cases hmem
  | cons e t ih =>
      obtain ⟨hnew, hrest⟩ := List.nodup_cons.mp h
      rcases List.mem_cons.mp hmem with rfl | hmem
      · simp [get?]
      · have hkey : e.1 ≠ key := fun heq => hnew (heq ▸ List.mem_map_of_mem hmem)
        simpa [get?, hkey] using ih hrest hmem

/-- If no key comes twice, the order of the keys makes no difference. -/
theorem get?_of_perm {t' : Table κ α} (h : t.keys.Nodup) (hperm : t'.Perm t) (key : κ) :
    t'.get? key = t.get? key := by
  have h' : t'.keys.Nodup := (hperm.map Prod.fst).nodup_iff.mpr h
  refine Option.ext fun a => ?_
  rw [get?_eq_some_iff h, get?_eq_some_iff h', hperm.mem_iff]

/-- What is found after a function on values is its result on what was found
before. -/
theorem get?_mapValues (f : κ → α → α) (key : κ) (t : Table κ α) :
    (t.mapValues f).get? key = (t.get? key).map (f key) := by
  induction t with
  | nil => rfl
  | cons e t ih =>
      by_cases hkey : e.1 = key
      · simp [mapValues, get?, hkey]
      · simpa [mapValues, get?, hkey] using ih

/-- A function on values goes through a put. -/
theorem mapValues_put (f : κ → α → α) (t : Table κ α) (key : κ) (a : α) :
    (t.put key a).mapValues f = (t.mapValues f).put key (f key a) := by
  induction t with
  | nil => rfl
  | cons e t ih =>
      by_cases hkey : e.1 = key
      · simp [mapValues, put, hkey]
      · simpa [mapValues, put, hkey] using ih

/-- Changing one value is putting in the changed one. -/
theorem mapValues_of_get? (h : t.keys.Nodup) (hget : t.get? key = some a) {f : κ → α → α}
    (others : ∀ k x, k ≠ key → f k x = x) : t.mapValues f = t.put key (f key a) := by
  induction t with
  | nil => simp [get?] at hget
  | cons e t ih =>
      obtain ⟨hnew, hrest⟩ := List.nodup_cons.mp h
      by_cases hkey : e.1 = key
      · obtain rfl : e.2 = a := by simpa [get?, hkey] using hget
        have htail : mapValues f t = t := by
          refine mapValues_of_forall fun e' he' => others _ _ ?_
          rintro rfl
          exact hnew (hkey ▸ List.mem_map_of_mem he')
        simp only [mapValues, List.map_cons, put, hkey, if_true] at htail ⊢
        rw [htail]
      · have hput := ih hrest (by simpa [get?, hkey] using hget)
        simp only [mapValues, List.map_cons, put, hkey, if_false, others _ _ hkey] at hput ⊢
        rw [hput]

end Table

end RtpReassembly
