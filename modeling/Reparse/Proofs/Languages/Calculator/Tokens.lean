import Reparse.Proofs.Languages.Calculator.Derivations
import Reparse.Proofs.Pattern.Meanings

namespace Reparse

/-!
# The tokens of the calculator

Each token is told by the text from an index on.  The patterns for operators and
numbers are compiled once and for all, and their code is that of a class and of a
repeated class.
-/

namespace Calculator

variable {text : List Char} {index : Nat}

/-- Skipping ends behind all blanks. -/
theorem skip_blanks (text : List Char) (index : Nat) :
    (Token.skipOver [blank] text (text.length + 1) index).2 = index + blanks (text.drop index) :=
  Token.skipOver_satisfy text index Text.isBlank "expected whitespace"

/-! ## Tokens made of patterns -/

open Pattern

/-- The code for operators is the program of a class. -/
theorem operatorCode_eq :
    operatorCode = (Instruction.union (['-', '+', '*', '/'].map .char)).code := by
  decide +kernel

/-- The code for numbers is the program of a repeated class. -/
theorem numberCode_eq :
    numberCode = (Instruction.atLeast 1 (.union [.range '0' '9'])).code := by
  decide +kernel

theorem means_number : (Instruction.atLeast 1 (.union [.range '0' '9'])).Means
    ((Meaning.one isDigit).andThen (.star (.one isDigit))) :=
  Instruction.means_plus (Instruction.means_union
    (Instruction.means_choice_single (Instruction.means_range '0' '9')))

theorem read_operatorSign (within : index ≤ text.length) :
    operatorSign.read text index =
      match (text.drop index).head? with
      | some char =>
        if isOperator char then .ok (char, index + 1)
        else .error (.message "expected an operator")
      | none => .error (.message "expected an operator") := by
  have means : (Instruction.union (['-', '+', '*', '/'].map .char)).Means (.one isOperator) :=
    Instruction.means_anyOf ['-', '+', '*', '/']
  rw [operatorSign, Token.read_map, operatorCode_eq, read_token_one means within, List.head?_drop]
  cases text[index]? with
  | none => rfl
  | some char =>
      by_cases isOne : isOperator char = true
      · simp only [isOne, if_true, String.toList_singleton, List.headD_cons]
      · simp only [isOne, Bool.false_eq_true, if_false]

theorem read_number (within : index ≤ text.length) :
    number.read text index =
      if digits (text.drop index) = [] then .error (.message "expected a number")
      else .ok (String.ofList (digits (text.drop index)),
        index + (digits (text.drop index)).length) := by
  rw [number, numberCode_eq, read_token_plus means_number within]
  rfl

end Calculator

end Reparse
