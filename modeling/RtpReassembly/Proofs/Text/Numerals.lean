import RtpReassembly.Text.Number

/-!
# Numerals

A numeral is one or more decimal digits, behind a plus sign or without one.  The
reader looks at one digit after the other and stops where the value so far passes
the limit; since more digits never make a value smaller, it accepts exactly the
numerals of the numbers up to the limit.

* `Numeral text n` says that a text denotes a number;
* `readNat_eq_ok_iff`, `readNat_eq_error_iff` are what is read and what is refused.
-/

namespace RtpReassembly.Text

/-- The text is one or more digits, a plus sign before them apart, with the value `n`. -/
def Numeral (text : List Char) (n : Nat) : Prop :=
  ∃ digits, (text = digits ∨ text = '+' :: digits) ∧ digits ≠ [] ∧
    (∀ c ∈ digits, c.isDigit) ∧ Nat.ofDigitChars 10 digits 0 = n

theorem isDigit_iff {c : Char} : c.isDigit ↔ '0' ≤ c ∧ c ≤ '9' := by
  simp [Char.isDigit, Char.le_def]

/-- A digit has the value by which it comes after zero. -/
theorem digitValue?_eq_some_iff {c : Char} {d : Nat} :
    digitValue? c = some d ↔ c.isDigit ∧ c.toNat - '0'.toNat = d := by
  rw [digitValue?, isDigit_iff, Option.ite_none_right_eq_some, Option.some.injEq]

theorem digitValue?_eq_none_iff {c : Char} : digitValue? c = none ↔ ¬ c.isDigit := by
  rw [digitValue?, isDigit_iff, ite_eq_right_iff]
  simp

/-- Digits behind a number make it no smaller. -/
theorem le_ofDigitChars (digits : List Char) (n : Nat) : n ≤ Nat.ofDigitChars 10 digits n := by
  rw [Nat.ofDigitChars_eq_ofDigitChars_zero]
  have := Nat.le_mul_of_pos_left n (Nat.pow_pos (by decide : 0 < 10) (n := digits.length))
  omega

/-- Digits are read to the end exactly if the value does not pass the limit. -/
theorem readDigits_eq_ok_iff {limit value n : Nat} {past : NumberError} {cs : List Char}
    (h : value ≤ limit) : readDigits limit past value cs = .ok n ↔
      (∀ c ∈ cs, c.isDigit) ∧ Nat.ofDigitChars 10 cs value = n ∧ n ≤ limit := by
  induction cs generalizing value with
  | nil =>
      simp only [readDigits, Except.ok.injEq, List.not_mem_nil, false_implies, implies_true,
        Nat.ofDigitChars_nil, true_and]
      exact ⟨fun heq => ⟨heq, heq ▸ h⟩, And.left⟩
  | cons c cs ih =>
      rw [readDigits, List.forall_mem_cons, Nat.ofDigitChars_cons]
      cases hd : digitValue? c with
      | none => simp [digitValue?_eq_none_iff.mp hd]
      | some d =>
          obtain ⟨hdigit, rfl⟩ := digitValue?_eq_some_iff.mp hd
          simp only [hdigit, true_and, Nat.mul_comm value]
          split
          · rename_i hle
            exact ih hle
          · rename_i hpast
            -- the value stays beyond the limit, whatever digits follow
            have hgrows := le_ofDigitChars cs (10 * value + (c.toNat - '0'.toNat))
            simp only [reduceCtorEq, false_iff]
            omega

/-- **Reading numbers.**  Exactly the numerals of numbers up to the limit are read. -/
theorem readNat_eq_ok_iff {limit n : Nat} {text : List Char} :
    readNat limit text = .ok n ↔ Numeral text n ∧ n ≤ limit := by
  have hplus : ¬ ('+').isDigit := by decide
  unfold readNat
  split
  · simp [Numeral]
  · simp [Numeral, hplus]
  · rename_i digits hnot
    rw [readDigits_eq_ok_iff (Nat.zero_le limit)]
    constructor
    · rintro ⟨hdigits, hvalue, hle⟩
      exact ⟨⟨digits, .inr rfl, fun h => hnot (by rw [h]), hdigits, hvalue⟩, hle⟩
    · rintro ⟨⟨digits', hsign, -, hdigits, hvalue⟩, hle⟩
      rcases hsign with rfl | hsign
      · exact absurd (hdigits '+' List.mem_cons_self) hplus
      · obtain rfl := List.tail_eq_of_cons_eq hsign
        exact ⟨hdigits, hvalue, hle⟩
  · rename_i hne _ hsign
    rw [readDigits_eq_ok_iff (Nat.zero_le limit)]
    constructor
    · rintro ⟨hdigits, hvalue, hle⟩
      exact ⟨⟨text, .inl rfl, hne, hdigits, hvalue⟩, hle⟩
    · rintro ⟨⟨digits, rfl | rfl, -, hdigits, hvalue⟩, hle⟩
      · exact ⟨hdigits, hvalue, hle⟩
      · exact absurd rfl (hsign digits)

/-- A text that is no numeral of a number up to the limit is refused. -/
theorem readNat_eq_error_iff {limit : Nat} {text : List Char} :
    (∃ e, readNat limit text = .error e) ↔ ¬ ∃ n ≤ limit, Numeral text n := by
  cases h : readNat limit text with
  | ok n => simpa using ⟨n, (readNat_eq_ok_iff.mp h).2, (readNat_eq_ok_iff.mp h).1⟩
  | error e =>
      simp only [Except.error.injEq, exists_eq', true_iff]
      rintro ⟨n, hle, hn⟩
      cases h.symm.trans (readNat_eq_ok_iff.mpr ⟨hn, hle⟩)

/-- A text denotes one number at most. -/
theorem Numeral.unique {text : List Char} {m n : Nat} (hm : Numeral text m) (hn : Numeral text n) :
    m = n := by
  have hread := readNat_eq_ok_iff.mpr ⟨hm, Nat.le_max_left m n⟩
  exact Except.ok.inj (hread.symm.trans (readNat_eq_ok_iff.mpr ⟨hn, Nat.le_max_right m n⟩))

theorem not_numeral_nil (n : Nat) : ¬ Numeral [] n := by
  rintro ⟨digits, rfl | h, hne, -⟩
  · exact hne rfl
  · cases h

/-- The digits of a number denote it. -/
theorem numeral_decimal (n : Nat) : Numeral (decimal n) n :=
  (readNat_eq_ok_iff.mp (readNat_decimal (Nat.le_refl n))).1

end RtpReassembly.Text
