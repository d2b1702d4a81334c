import Reparse.Languages.Calculator
import Reparse.Proofs.Parsing.Outlines
import Reparse.Proofs.Text.Beginnings

namespace Reparse

/-!
# What the calculator finds in a text

The rules of the calculator can be read as a definition of what they are to find
in front of a text.  It speaks of no session, no place and no earlier parse.  It
gives at most one outline for each text.  The outline of a node depends on the
characters that it covers and on the one that follows them, so the same is found
wherever these are the same.

A derivation is for a whole node, for the body of a rule, or for the operations
that follow an operand.  The length of an outline says in each case how many
characters are consumed.  A node includes the blanks on both sides of its body.
-/

namespace Calculator

/-! ## Characters -/

/-- How many blanks a text begins with. -/
def blanks (text : List Char) : Nat := (text.takeWhile Text.isBlank).length

def isDigit (char : Char) : Bool := decide ('0' ≤ char) && decide (char ≤ '9')

/-- The digits that a text begins with. -/
def digits (text : List Char) : List Char := text.takeWhile isDigit

def isOperator (char : Char) : Bool := ['-', '+', '*', '/'].contains char

/-- The label for digits, which may be too many for a number. -/
def numberLabel (digits : List Char) : Label :=
  match Numeral.readNat maxNumber digits with
  | .ok value => .number value
  | .error error => .error (Fault.foreign (grammar.name .atom) error.message).describe

/-- Neither blanks nor an operation that binds tighter than a power comes first. -/
def Ends (power : Nat) (text : List Char) : Prop :=
  ∀ char ∈ text.head?, Text.isBlank char = false ∧
    (isOperator char = true → Calculator.power char ≤ power)

theorem no_blank_drop_blanks (text : List Char) :
    ∀ char ∈ (text.drop (blanks text)).head?, Text.isBlank char = false :=
  Text.head?_drop_leading text

theorem blanks_eq_zero {text : List Char}
    (noBlank : ∀ char ∈ text.head?, Text.isBlank char = false) : blanks text = 0 :=
  Text.leading_eq_zero noBlank

theorem blanks_of_agrees {count : Nat} {text text' : List Char}
    (agrees : Text.Agrees count text text') (lt : blanks text < count) :
    blanks text' = blanks text :=
  agrees.leading lt

/-! ## Derivations -/

/-- What a rule looks for.  An operation goes with the outline of its left side. -/
inductive Goal where
  | expression (power : Nat)
  | atom
  | operation (floor : Nat) (left : Outline Label)

/-- A node, the body of one, or what follows an operand in an expression. -/
inductive Task where
  | node (goal : Goal)
  | body (goal : Goal)
  | rest (power : Nat) (left : Outline Label)

/-- The outline that a task finds in front of a text. -/
inductive Derives : Task → List Char → Outline Label → Prop where
  | node {goal : Goal} {text : List Char} {content : Outline Label}
      (body : Derives (.body goal) (text.drop (blanks text)) content) :
      Derives (.node goal) text
        ⟨content.label, blanks text + content.length +
          blanks (text.drop (blanks text + content.length)), content.children⟩
  | failed {power : Nat} {text : List Char} {first : Outline Label}
      (atom : Derives (.node .atom) text first) (isError : isError first.label = true) :
      Derives (.body (.expression power)) text first
  | expression {power : Nat} {text : List Char} {first last : Outline Label}
      (atom : Derives (.node .atom) text first) (noError : isError first.label = false)
      (rest : Derives (.rest power first) (text.drop first.length) last) :
      Derives (.body (.expression power)) text
        ⟨last.label, first.length + last.length, last.children⟩
  | parentheses {text : List Char} {inner : Outline Label} (opening : text.head? = some '(')
      (expression : Derives (.node (.expression 0)) (text.drop 1) inner)
      (closing : (text.drop (1 + inner.length)).head? = some ')') :
      Derives (.body .atom) text ⟨inner.label, 1 + inner.length + 1, inner.children⟩
  | unclosed {text : List Char} {inner : Outline Label} (opening : text.head? = some '(')
      (expression : Derives (.node (.expression 0)) (text.drop 1) inner)
      (noClosing : (text.drop (1 + inner.length)).head? ≠ some ')') :
      Derives (.body .atom) text ⟨.error "expected `)`", 1 + inner.length, []⟩
  | number {text : List Char} (noOpening : text.head? ≠ some '(') (some : digits text ≠ []) :
      Derives (.body .atom) text ⟨numberLabel (digits text), (digits text).length, []⟩
  | noNumber {text : List Char} (noOpening : text.head? ≠ some '(') (none : digits text = []) :
      Derives (.body .atom) text ⟨.error "expected a number", 0, []⟩
  | noOperator {floor : Nat} {left : Outline Label} {text : List Char}
      (none : ∀ char ∈ text.head?, isOperator char = false) :
      Derives (.body (.operation floor left)) text ⟨.error "expected an operator", 0, []⟩
  | loose {floor : Nat} {left : Outline Label} {text : List Char} {char : Char}
      (operator : text.head? = some char) (isOperator : isOperator char = true)
      (isLoose : power char ≤ floor) :
      Derives (.body (.operation floor left)) text ⟨.error "operator binds too loosely", 1, []⟩
  | operation {floor : Nat} {left right : Outline Label} {text : List Char} {char : Char}
      (operator : text.head? = some char) (isOperator : isOperator char = true)
      (isTight : floor < power char)
      (expression : Derives (.node (.expression (power char))) (text.drop 1) right) :
      Derives (.body (.operation floor left)) text
        ⟨.binary char, 1 + right.length, [left, right]⟩
  | last {power : Nat} {left : Outline Label} {text : List Char} (ends : Ends power text) :
      Derives (.rest power left) text ⟨left.label, 0, left.children⟩
  | further {power : Nat} {left next last : Outline Label} {text : List Char}
      (operation : Derives (.node (.operation power left)) text next)
      (noError : isError next.label = false)
      (rest : Derives (.rest power next) (text.drop next.length) last) :
      Derives (.rest power left) text ⟨last.label, next.length + last.length, last.children⟩

namespace Derives

variable {goal : Goal} {task : Task} {floor : Nat} {left outline outline' : Outline Label}
  {text text' : List Char}

/-- No blank follows a node. -/
theorem no_blank (derives : Derives (.node goal) text outline) :
    ∀ char ∈ (text.drop outline.length).head?, Text.isBlank char = false := by
  cases derives with
  | node body =>
      rename_i content
      simp only [← List.drop_drop]
      exact no_blank_drop_blanks _

/-- Nothing is found between an operand and an operation. -/
theorem ends_of_isError (derives : Derives (.node (.operation floor left)) text outline)
    (isError : isError outline.label = true)
    (noBlank : ∀ char ∈ text.head?, Text.isBlank char = false) : Ends floor text := by
  cases derives with
  | node body =>
      rw [blanks_eq_zero noBlank, List.drop_zero] at body
      intro char found
      refine ⟨noBlank char found, fun isOperator => ?_⟩
      cases body with
      | noOperator none =>
          rw [none char found] at isOperator
          cases isOperator
      | loose operator isOperator isLoose =>
          cases Option.some.inj (operator.symm.trans found)
          exact isLoose
      | operation operator isOperator isTight expression => cases isError

/-- An operation that is found begins with an operator that binds tightly enough. -/
theorem not_ends (derives : Derives (.node (.operation floor left)) text outline)
    (noError : isError outline.label = false) : ¬Ends floor text := by
  intro ends
  cases derives with
  | node body =>
      have noBlank : ∀ char ∈ text.head?, Text.isBlank char = false :=
        fun char found => (ends char found).1
      rw [blanks_eq_zero noBlank, List.drop_zero] at body
      cases body with
      | noOperator none => cases noError
      | loose operator isOperator isLoose => cases noError
      | operation operator isOperator isTight expression =>
          exact Nat.not_le_of_lt isTight ((ends _ operator).2 isOperator)

/-- An operation that is found is not empty. -/
theorem length_pos (derives : Derives (.node (.operation floor left)) text outline)
    (noError : isError outline.label = false) : 0 < outline.length := by
  cases derives with
  | node body =>
      cases body with
      | noOperator none => cases noError
      | loose operator isOperator isLoose => cases noError
      | operation operator isOperator isTight expression => simp only; omega

/-- At most one outline is found. -/
theorem unique (derives : Derives task text outline) (derives' : Derives task text outline') :
    outline = outline' := by
  induction derives generalizing outline' with
  | node body inductionHypothesis =>
      cases derives' with
      | node body' => rw [inductionHypothesis body']
  | failed atom isError inductionHypothesis =>
      cases derives' with
      | failed atom' isError' => exact inductionHypothesis atom'
      | expression atom' noError' rest' =>
          rw [inductionHypothesis atom', noError'] at isError
          cases isError
  | expression atom noError rest atomHypothesis restHypothesis =>
      cases derives' with
      | failed atom' isError' =>
          rw [atomHypothesis atom', isError'] at noError
          cases noError
      | expression atom' noError' rest' =>
          cases atomHypothesis atom'
          rw [restHypothesis rest']
  | parentheses opening expression closing inductionHypothesis =>
      cases derives' with
      | parentheses opening' expression' closing' => rw [inductionHypothesis expression']
      | unclosed opening' expression' noClosing' =>
          cases inductionHypothesis expression'
          exact absurd closing noClosing'
      | number noOpening' some' => exact absurd opening noOpening'
      | noNumber noOpening' none' => exact absurd opening noOpening'
  | unclosed opening expression noClosing inductionHypothesis =>
      cases derives' with
      | parentheses opening' expression' closing' =>
          cases inductionHypothesis expression'
          exact absurd closing' noClosing
      | unclosed opening' expression' noClosing' => rw [inductionHypothesis expression']
      | number noOpening' some' => exact absurd opening noOpening'
      | noNumber noOpening' none' => exact absurd opening noOpening'
  | number noOpening some =>
      cases derives' with
      | parentheses opening' expression' closing' => exact absurd opening' noOpening
      | unclosed opening' expression' noClosing' => exact absurd opening' noOpening
      | number noOpening' some' => rfl
      | noNumber noOpening' none' => exact absurd none' some
  | noNumber noOpening none =>
      cases derives' with
      | parentheses opening' expression' closing' => exact absurd opening' noOpening
      | unclosed opening' expression' noClosing' => exact absurd opening' noOpening
      | number noOpening' some' => exact absurd none some'
      | noNumber noOpening' none' => rfl
  | noOperator none =>
      cases derives' with
      | noOperator none' => rfl
      | loose operator' isOperator' isLoose' =>
          rw [none _ operator'] at isOperator'
          cases isOperator'
      | operation operator' isOperator' isTight' expression' =>
          rw [none _ operator'] at isOperator'
          cases isOperator'
  | loose operator isOperator isLoose =>
      cases derives' with
      | noOperator none' =>
          rw [none' _ operator] at isOperator
          cases isOperator
      | loose operator' isOperator' isLoose' => rfl
      | operation operator' isOperator' isTight' expression' =>
          cases Option.some.inj (operator.symm.trans operator')
          exact absurd isTight' (Nat.not_lt_of_le isLoose)
  | operation operator isOperator isTight expression inductionHypothesis =>
      cases derives' with
      | noOperator none' =>
          rw [none' _ operator] at isOperator
          cases isOperator
      | loose operator' isOperator' isLoose' =>
          cases Option.some.inj (operator.symm.trans operator')
          exact absurd isTight (Nat.not_lt_of_le isLoose')
      | operation operator' isOperator' isTight' expression' =>
          cases Option.some.inj (operator.symm.trans operator')
          rw [inductionHypothesis expression']
  | last ends =>
      cases derives' with
      | last ends' => rfl
      | further operation' noError' rest' => exact absurd ends (operation'.not_ends noError')
  | further operation noError rest operationHypothesis restHypothesis =>
      cases derives' with
      | last ends' => exact absurd ends' (operation.not_ends noError)
      | further operation' noError' rest' =>
          cases operationHypothesis operation'
          rw [restHypothesis rest']

/-- What is found in a text is found in any text that begins with the same characters, and
has the same one behind them. -/
theorem of_agrees (derives : Derives task text outline)
    (agrees : Text.Agrees (outline.length + 1) text text') : Derives task text' outline := by
  induction derives generalizing text' with
  | @node goal text content body inductionHypothesis =>
      simp only at agrees
      have leading := blanks_of_agrees agrees (by omega)
      have trailing := blanks_of_agrees (agrees.drop (blanks text + content.length)
        (blanks (text.drop (blanks text + content.length)) + 1) (by omega)) (by omega)
      have inner := agrees.drop (blanks text) (content.length + 1) (by omega)
      rw [← trailing, ← leading]
      exact .node (inductionHypothesis (leading.symm ▸ inner))
  | failed atom isError inductionHypothesis => exact .failed (inductionHypothesis agrees) isError
  | expression atom noError rest atomHypothesis restHypothesis =>
      simp only at agrees
      exact .expression (atomHypothesis (agrees.mono (by omega))) noError
        (restHypothesis (agrees.drop _ _ (by omega)))
  | parentheses opening expression closing inductionHypothesis =>
      simp only at agrees
      refine .parentheses ((agrees.head? (Nat.succ_pos _)).trans opening)
        (inductionHypothesis (agrees.drop 1 _ (by omega))) ?_
      exact ((agrees.drop _ 1 (by omega)).head? Nat.one_pos).trans closing
  | unclosed opening expression noClosing inductionHypothesis =>
      simp only at agrees
      refine .unclosed ((agrees.head? (Nat.succ_pos _)).trans opening)
        (inductionHypothesis (agrees.drop 1 _ (by omega))) ?_
      rw [(agrees.drop _ 1 (by omega)).head? Nat.one_pos]
      exact noClosing
  | @number text noOpening some =>
      have same : digits text' = digits text := agrees.takeWhile isDigit (Nat.lt_succ_self _)
      rw [← same] at some ⊢
      exact .number (agrees.head? (Nat.succ_pos _) ▸ noOpening) some
  | @noNumber text noOpening none =>
      have same : digits text' = digits text := agrees.takeWhile isDigit
        (by rw [Text.leading, ← digits, none]; exact Nat.one_pos)
      exact .noNumber (agrees.head? (Nat.succ_pos _) ▸ noOpening) (same.trans none)
  | noOperator none => exact .noOperator (agrees.head? (Nat.succ_pos _) ▸ none)
  | loose operator isOperator isLoose =>
      exact .loose ((agrees.head? (Nat.succ_pos _)).trans operator) isOperator isLoose
  | operation operator isOperator isTight expression inductionHypothesis =>
      simp only at agrees
      exact .operation ((agrees.head? (Nat.succ_pos _)).trans operator) isOperator isTight
        (inductionHypothesis (agrees.drop 1 _ (by omega)))
  | last ends => exact .last (fun char found => ends char (agrees.head? (Nat.succ_pos _) ▸ found))
  | further operation noError rest operationHypothesis restHypothesis =>
      simp only at agrees
      exact .further (operationHypothesis (agrees.mono (by omega))) noError
        (restHypothesis (agrees.drop _ _ (by omega)))

end Derives

end Calculator

end Reparse
