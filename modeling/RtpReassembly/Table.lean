/-!
# Tables

A table keeps one value for each key, in the order in which the keys first
came.  Putting a key in again replaces its value.
-/

namespace RtpReassembly

/-- Values by key, in the order of the keys' first coming. -/
abbrev Table (κ α : Type) := List (κ × α)

namespace Table

variable {κ α : Type} [DecidableEq κ]

/-- The value of a key. -/
def get? (key : κ) : Table κ α → Option α
  | [] => none
  | (k, a) :: rest => if k = key then some a else get? key rest

/-- The table in which `key` has the value `a`. -/
def put (key : κ) (a : α) : Table κ α → Table κ α
  | [] => [(key, a)]
  | (k, b) :: rest => if k = key then (k, a) :: rest else (k, b) :: put key a rest

/-- What was put under a key is found there, and all other keys are as they were.
-/
theorem get?_put (key other : κ) (a : α) (t : Table κ α) :
    get? other (put key a t) = if key = other then some a else get? other t := by
  induction t with
  | nil => rfl
  | cons entry rest ih =>
    obtain ⟨k, b⟩ := entry
    by_cases hk : k = key
    · subst hk
      simp only [put, get?, if_true]
      split <;> rfl
    · simp only [put, get?, hk, if_false, ih]
      by_cases ho : k = other
      · subst ho
        simp [Ne.symm hk]
      · simp [ho]

end Table

end RtpReassembly
