/-!
# Reading numbers

A number is written in decimal digits, with a sign in front if need be.  It is
read from the left, and the first thing that is wrong is what is reported: a
character that is no digit, or the digit that takes the number out of bounds.
Digits alone are read as their number, if it is within bounds.
-/

namespace Reparse

namespace Numeral

/-- Why a text is not read as a number. -/
inductive NumeralError where
  | empty
  | invalidDigit
  | tooLarge
  | tooSmall
deriving DecidableEq, Repr

def NumeralError.message : NumeralError → String
  | .empty => "cannot parse integer from empty string"
  | .invalidDigit => "invalid digit found in string"
  | .tooLarge => "number too large to fit in target type"
  | .tooSmall => "number too small to fit in target type"

/-- Largest number of a given count of binary digits. -/
def greatestOf (bits : Nat) : Nat := Nat.pow 2 bits - 1

/-- Read digits behind those that make `high`, up to a greatest number. -/
def readDigits (greatest : Nat) (beyond : NumeralError) : List Char → Nat → Except NumeralError Nat
  | [], high => .ok high
  | char :: rest, high =>
    if char.isDigit then
      let number := 10 * high + (char.toNat - '0'.toNat)
      if greatest < number then .error beyond else readDigits greatest beyond rest number
    else .error .invalidDigit

/-- A number from zero to `greatest`. -/
def readNat (greatest : Nat) (text : List Char) : Except NumeralError Nat :=
  match text with
  | [] => .error .empty
  | '+' :: digit :: rest => readDigits greatest .tooLarge (digit :: rest) 0
  | _ => readDigits greatest .tooLarge text 0

/-- A number from `-least` to `greatest`. -/
def readInt (least greatest : Nat) (text : List Char) : Except NumeralError Int :=
  match text with
  | '-' :: digit :: rest => do return -(← readDigits least .tooSmall (digit :: rest) 0 : Nat)
  | _ => do return (← readNat greatest text : Nat)

/-! ## Digits alone -/

theorem le_ofDigitChars (digits : List Char) (high : Nat) : high ≤ Nat.ofDigitChars 10 digits high := by
  induction digits generalizing high with
  | nil => exact Nat.le_refl _
  | cons char digits inductionHypothesis =>
      have rest := inductionHypothesis (10 * high + (char.toNat - '0'.toNat))
      rw [Nat.ofDigitChars_cons]
      omega

/-- Digits are read as their number, if that is not too large. -/
theorem readDigits_eq {greatest high : Nat} (beyond : NumeralError) {digits : List Char}
    (areDigits : ∀ char ∈ digits, char.isDigit = true)
    (small : Nat.ofDigitChars 10 digits high ≤ greatest) :
    readDigits greatest beyond digits high = .ok (Nat.ofDigitChars 10 digits high) := by
  induction digits generalizing high with
  | nil => rfl
  | cons char digits inductionHypothesis =>
      rw [Nat.ofDigitChars_cons] at small ⊢
      have le := le_ofDigitChars digits (10 * high + (char.toNat - '0'.toNat))
      rw [readDigits, if_pos (areDigits char List.mem_cons_self)]
      simp only [if_neg (Nat.not_lt_of_le (Nat.le_trans le small))]
      exact inductionHypothesis (fun other member => areDigits other (List.mem_cons_of_mem _ member))
        small

/-- A number is read from its digits.  None of them is taken for a sign. -/
theorem readNat_eq {greatest : Nat} {digits : List Char} (some : digits ≠ [])
    (areDigits : ∀ char ∈ digits, char.isDigit = true)
    (small : Nat.ofDigitChars 10 digits 0 ≤ greatest) :
    readNat greatest digits = .ok (Nat.ofDigitChars 10 digits 0) := by
  have read := readDigits_eq .tooLarge areDigits small
  cases digits with
  | nil => exact absurd rfl some
  | cons first others =>
      have noSign : first ≠ '+' := by
        rintro rfl
        cases areDigits _ List.mem_cons_self
      rw [readNat.eq_def]
      split
      · next same => cases same
      · next same => exact absurd (List.cons.inj same).1 noSign
      · exact read

end Numeral

end Reparse
