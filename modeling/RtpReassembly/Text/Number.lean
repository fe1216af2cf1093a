/-!
# Whole numbers in text

Decimal ASCII digits behind an optional sign.  The text is read from the left,
and the first character at which it goes wrong decides the error: it is no
digit, or the value so far passes the limit.

* `decimal` writes a number, and `readNat_decimal` says that it is read back.
-/

namespace RtpReassembly.Text

/-- Why a text is no number of the range asked for. -/
inductive NumberError
  | empty
  | invalidDigit
  | tooLarge
  | tooSmall
  deriving DecidableEq, Repr

/-- The wording of an error. -/
def NumberError.message : NumberError → String
  | .empty => "cannot parse integer from empty string"
  | .invalidDigit => "invalid digit found in string"
  | .tooLarge => "number too large to fit in target type"
  | .tooSmall => "number too small to fit in target type"

/-- The value of an ASCII digit. -/
def digitValue? (c : Char) : Option Nat :=
  if '0' ≤ c ∧ c ≤ '9' then some (c.toNat - '0'.toNat) else none

/-- Continues a number whose digits so far have the value `value`; `past` is
the error of a value over `limit`. -/
def readDigits (limit : Nat) (past : NumberError) (value : Nat) :
    List Char → Except NumberError Nat
  | [] => .ok value
  | c :: cs =>
    match digitValue? c with
    | none => .error .invalidDigit
    | some d =>
      if value * 10 + d ≤ limit then readDigits limit past (value * 10 + d) cs
      else .error past

/-- A number from 0 to `limit`; a plus sign may stand before it. -/
def readNat (limit : Nat) : List Char → Except NumberError Nat
  | [] => .error .empty
  | ['+'] => .error .invalidDigit
  | '+' :: digits => readDigits limit .tooLarge 0 digits
  | digits => readDigits limit .tooLarge 0 digits

/-- The digits of a number, without leading zeros. -/
def decimal (n : Nat) : List Char :=
  Nat.toDigits 10 n

/-- A decimal digit has the value that it was written for. -/
theorem digitValue?_digitChar {n : Nat} (h : n < 10) : digitValue? n.digitChar = some n := by
  have hall : ∀ i : Fin 10, digitValue? i.val.digitChar = some i.val := by decide
  exact hall ⟨n, h⟩

/-- Digits are read from left to right, and the first wrong one decides. -/
theorem readDigits_append (limit : Nat) (past : NumberError) (value : Nat) (cs ds : List Char) :
    readDigits limit past value (cs ++ ds) =
      match readDigits limit past value cs with
      | .ok n => readDigits limit past n ds
      | .error e => .error e := by
  induction cs generalizing value with
  | nil => rfl
  | cons c cs ih =>
    simp only [List.cons_append, readDigits]
    cases digitValue? c with
    | none => rfl
    | some d =>
      simp only
      split
      · exact ih _
      · rfl

/-- The digits of a number within the limit are read as that number. -/
theorem readDigits_decimal {limit n : Nat} (past : NumberError) (h : n ≤ limit) :
    readDigits limit past 0 (decimal n) = .ok n := by
  induction n using Nat.strongRecOn with
  | ind n ih =>
    have hd := digitValue?_digitChar (Nat.mod_lt n (by omega : 0 < 10))
    have hv : n / 10 * 10 + n % 10 = n := by omega
    unfold decimal
    by_cases hn : n < 10
    · rw [Nat.toDigits_of_lt_base hn]
      simp [readDigits, digitValue?_digitChar hn, h]
    · have hq := ih (n / 10) (by omega) (by omega)
      unfold decimal at hq
      rw [Nat.toDigits_of_base_le (by omega) (by omega), readDigits_append, hq]
      simp [readDigits, hd, hv, h]

/-- A number that is written in decimal is read back, unless it is past the limit.
-/
theorem readNat_decimal {limit n : Nat} (h : n ≤ limit) : readNat limit (decimal n) = .ok n := by
  have hread := readDigits_decimal .tooLarge h
  have hplus : '+' ∉ decimal n := fun hm => by
    have := Nat.isDigit_of_mem_toDigits (by omega) (by omega) hm
    contradiction
  unfold readNat
  split
  · rename_i heq
    exact absurd heq Nat.toDigits_ne_nil
  · rename_i heq
    exact absurd (heq ▸ List.mem_cons_self) hplus
  · rename_i heq
    exact absurd (heq ▸ List.mem_cons_self) hplus
  · exact hread

/-- A number from `-limit - 1` to `limit`; either sign may stand before it. -/
def readInt (limit : Nat) : List Char → Except NumberError Int
  | [] => .error .empty
  | ['-'] => .error .invalidDigit
  | '-' :: digits => (readDigits (limit + 1) .tooSmall 0 digits).map (fun n => -(n : Int))
  | text => (readNat limit text).map (fun n => (n : Int))

end RtpReassembly.Text
