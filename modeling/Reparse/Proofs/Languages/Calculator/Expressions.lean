import Reparse.Proofs.Languages.Calculator.Derivations

namespace Reparse

/-!
# Expressions and how they are written

An expression is a number, or two expressions joined by an operator.  It may be
written in many ways.  The digits of a number may begin with zeros, parentheses
may be put around any part, and blanks around any number and any parenthesis.

Parentheses may be left out where precedence and associativity tell the parts
apart.  What stands beside an operator is written for a floor, and without
parentheses it has operators above the floor only.  To the right of an operator
the floor is the power of the operator.  To the left it is one less, since
operators of one power associate to the left.

An outline shows an expression if it has the operators, the operands in their
order and the numbers of the expression.  There is no place for an error in it.
-/

namespace Calculator

inductive Operator where
  | plus
  | minus
  | times
  | dividedBy
deriving DecidableEq, Repr

namespace Operator

def sign : Operator → Char
  | plus => '+'
  | minus => '-'
  | times => '*'
  | dividedBy => '/'

/-- How tight an operator binds. -/
abbrev power (operator : Operator) : Nat := Calculator.power operator.sign

theorem power_pos (operator : Operator) : 0 < operator.power := by cases operator <;> decide

theorem isOperator_sign (operator : Operator) : isOperator operator.sign = true := by
  cases operator <;> decide

theorem isBlank_sign (operator : Operator) : Text.isBlank operator.sign = false := by
  cases operator <;> decide

theorem isDigit_sign (operator : Operator) : isDigit operator.sign = false := by
  cases operator <;> decide

end Operator

inductive Expression where
  | number (value : Nat)
  | binary (operator : Operator) (left right : Expression)
deriving DecidableEq, Repr

/-- Nothing but blanks. -/
def IsBlank (text : List Char) : Prop := ∀ char ∈ text, Text.isBlank char = true

instance {text : List Char} : Decidable (IsBlank text) :=
  List.decidableBAll _ text

/-- Digits that are read as a number. -/
structure Spells (digits : List Char) (number : Nat) : Prop where
  nonempty : digits ≠ []
  areDigits : ∀ char ∈ digits, char.isDigit = true
  value : Nat.ofDigitChars 10 digits 0 = number
  fits : number ≤ maxNumber

instance {digits : List Char} {number : Nat} : Decidable (Spells digits number) :=
  haveI : Decidable (∀ char ∈ digits, char.isDigit = true) := List.decidableBAll _ digits
  decidable_of_iff (digits ≠ [] ∧ (∀ char ∈ digits, char.isDigit = true) ∧
      Nat.ofDigitChars 10 digits 0 = number ∧ number ≤ maxNumber)
    ⟨fun ⟨nonempty, areDigits, value, fits⟩ => ⟨nonempty, areDigits, value, fits⟩,
      fun ⟨nonempty, areDigits, value, fits⟩ => ⟨nonempty, areDigits, value, fits⟩⟩

/-- A text writes an expression for a floor. -/
inductive Written : Nat → Expression → List Char → Prop where
  | number {floor value : Nat} {before digits after : List Char} (leading : IsBlank before)
      (spells : Spells digits value) (trailing : IsBlank after) :
      Written floor (.number value) (before ++ (digits ++ after))
  | parentheses {floor : Nat} {inner : Expression} {before written after : List Char}
      (leading : IsBlank before) (expression : Written 0 inner written) (trailing : IsBlank after) :
      Written floor inner (before ++ ('(' :: (written ++ [')']) ++ after))
  | binary {floor : Nat} {operator : Operator} {left right : Expression}
      {written written' : List Char} (tight : floor < operator.power)
      (first : Written (operator.power - 1) left written)
      (second : Written operator.power right written') :
      Written floor (.binary operator left right) (written ++ operator.sign :: written')

namespace Expression

/-- No number is too large. -/
def Fits : Expression → Prop
  | .number value => value ≤ maxNumber
  | .binary _ left right => left.Fits ∧ right.Fits

/-- The shortest way to write an expression for a floor. -/
def write (floor : Nat) : Expression → List Char
  | .number value => Nat.toDigits 10 value
  | .binary operator left right =>
    let written := left.write (operator.power - 1) ++ operator.sign :: right.write operator.power
    if floor < operator.power then written else '(' :: (written ++ [')'])

end Expression

theorem isBlank_nil : IsBlank [] := fun _ member => absurd member List.not_mem_nil

/-- The decimal digits of a number are read as it. -/
theorem spells_toDigits {value : Nat} (fits : value ≤ maxNumber) :
    Spells (Nat.toDigits 10 value) value where
  nonempty := Nat.toDigits_ne_nil
  areDigits := fun _ member => Nat.isDigit_of_mem_toDigits (by decide) (by decide) member
  value := Nat.ofDigitChars_toDigits (by decide) (by decide)
  fits := fits

/-- Every expression can be written, for any floor. -/
theorem written_write {expression : Expression} (fits : expression.Fits) (floor : Nat) :
    Written floor expression (expression.write floor) := by
  induction expression generalizing floor with
  | number value =>
      have written : Written floor (.number value) ([] ++ (Nat.toDigits 10 value ++ [])) :=
        .number isBlank_nil (spells_toDigits fits) isBlank_nil
      rw [List.nil_append, List.append_nil] at written
      exact written
  | binary operator left right leftHypothesis rightHypothesis =>
      rw [Expression.write]
      by_cases tight : floor < operator.power
      · simp only [if_pos tight]
        exact .binary tight (leftHypothesis fits.1 _) (rightHypothesis fits.2 _)
      · simp only [if_neg tight]
        have inner : Written 0 (.binary operator left right) _ :=
          .binary operator.power_pos (leftHypothesis fits.1 _) (rightHypothesis fits.2 _)
        have written : Written floor (.binary operator left right)
            ([] ++ ('(' :: (left.write (operator.power - 1) ++
              operator.sign :: right.write operator.power ++ [')']) ++ [])) :=
          .parentheses isBlank_nil inner isBlank_nil
        rw [List.nil_append, List.append_nil] at written
        exact written

/-! ## Outlines of expressions -/

/-- An outline has the operators, operands and numbers of an expression. -/
inductive Shows : Outline Label → Expression → Prop where
  | number {value length : Nat} : Shows ⟨.number value, length, []⟩ (.number value)
  | binary {operator : Operator} {left right : Outline Label} {first second : Expression}
      {length : Nat} (one : Shows left first) (other : Shows right second) :
      Shows ⟨.binary operator.sign, length, [left, right]⟩ (.binary operator first second)

namespace Shows

variable {outline : Outline Label} {expression : Expression}

theorem noError (shows : Shows outline expression) : isError outline.label = false := by
  cases shows <;> rfl

/-- The length of an outline does not matter. -/
theorem withLength (shows : Shows outline expression) (length : Nat) :
    Shows ⟨outline.label, length, outline.children⟩ expression := by
  cases shows with
  | number => exact .number
  | binary one other => exact .binary one other

/-- No node of a tree that shows an expression is an error. -/
theorem noErrors {tree : Node} (shows : Shows tree.outline expression) (depth : Nat) :
    ∀ entry ∈ tree.preorder depth, isError entry.2.label = false := by
  generalize same : tree.outline = outline at shows
  induction shows generalizing tree depth with
  | number =>
      rcases tree with ⟨label, children, origin⟩
      rw [Tree.outline, Tree.outlines_eq_map, Outline.mk.injEq, List.map_eq_nil_iff] at same
      rcases same with ⟨rfl, _, rfl⟩
      rw [Tree.preorder, Tree.preorderAll, List.forall_mem_singleton]
      rfl
  | binary one other oneHypothesis otherHypothesis =>
      rcases tree with ⟨label, children, origin⟩
      rw [Tree.outline, Tree.outlines_eq_map, Outline.mk.injEq] at same
      rcases same with ⟨rfl, _, same⟩
      rcases List.map_eq_cons_iff.mp same with ⟨first, rest, rfl, isFirst, same⟩
      rcases List.map_eq_cons_iff.mp same with ⟨second, rest, rfl, isSecond, same⟩
      cases List.map_eq_nil_iff.mp same
      rw [Tree.preorder, Tree.preorderAll, Tree.preorderAll, Tree.preorderAll, List.append_nil,
        List.forall_mem_cons, List.forall_mem_append]
      exact ⟨rfl, oneHypothesis (depth + 1) isFirst, otherHypothesis (depth + 1) isSecond⟩

end Shows

end Calculator

end Reparse
