import Reparse.Parsing.Document
import Reparse.Pattern.Compile
import Reparse.Text.Blank

/-!
# A calculator

Expressions over numbers with the four operations and parentheses.
Multiplication and division bind tighter than addition and subtraction, and
operators of one kind associate to the left.

An expression is an operand, and then as many operations on what stands to the
left as bind tighter than the expression may hold.  What stands to the left is
part of the state of an operation, and states of two operations are the same
only if the left sides are the same node.
-/

namespace Reparse

namespace Calculator

inductive Rule where
  | expression
  | atom
  | operation
deriving DecidableEq, Repr

/-- An operation has its left and its right operand as children. -/
inductive Label where
  | number (value : Nat)
  | binary (operator : Char)
  | error (text : String)
deriving DecidableEq, Repr

abbrev Node := Tree Label Char

/-- An operand bounded by a binding power, or an operation on what stands to the left. -/
inductive Slot where
  | operand (power : Nat)
  | operation (power : Nat) (left : Node)

abbrev vocabulary : Vocabulary where
  Rule := Rule
  State := Slot
  Label := Label
  Skip := Char

/-! ## Tokens -/

def symbol (char : Char) : Token Char :=
  Token.exactly char ("expected `" ++ String.singleton char ++ "`")

def blank : Token Char := Token.satisfy Text.isBlank "expected whitespace"

/-- The code of a pattern that is known to be well formed. -/
def codeOf (pattern : String) : Pattern.Bytecode :=
  match Pattern.compile pattern with
  | .ok code => code
  | .error _ => .union []

def operatorCode : Pattern.Bytecode := codeOf "[-+*/]"

def numberCode : Pattern.Bytecode := codeOf "[0-9]+"

def operatorSign : Token Char :=
  return (← Pattern.token operatorCode "expected an operator").toList.headD '+'

def number : Token String := Pattern.token numberCode "expected a number"

/-! ## Rules -/

abbrev RuleBody := Body vocabulary (Content Label Char)

def isError : Label → Bool
  | .error _ => true
  | _ => false

def power (operator : Char) : Nat := if operator = '+' ∨ operator = '-' then 1 else 2

/-- Largest number that can be written. -/
def maxNumber : Nat := Numeral.greatestOf 32

def expression : Slot → RuleBody
  | .operation _ _ => Body.refuse "expression needs an operand slot"
  | .operand power => do
    let first ← Body.parse .atom (.operand 0)
    if isError first.label then Body.adopt first
    else
      let last ← Body.loop first fun left => do
        let saved ← Body.mark
        let next ← Body.parse .operation (.operation power left)
        if isError next.label then
          Body.restore saved
          return (left, false)
        else return (next, true)
      Body.adopt last

def atom : RuleBody := do
  if ← Body.isNext (symbol '(') then
    let _ ← Body.lex (symbol '(')
    let inner ← Body.parse .expression (.operand 0)
    let _ ← Body.lex (symbol ')')
    Body.adopt inner
  else
    match Numeral.readNat maxNumber (← Body.lex number).toList with
    | .ok value => return ⟨.number value, []⟩
    | .error error => Body.foreign error.message

def operation : Slot → RuleBody
  | .operand _ => Body.refuse "infix needs a left operand"
  | .operation floor left => do
    let operator ← Body.lex operatorSign
    if power operator ≤ floor then Body.refuse "operator binds too loosely"
    else
      let right ← Body.parse .expression (.operand (power operator))
      return ⟨.binary operator, [left, right]⟩

def grammar : Grammar vocabulary where
  name
    | .expression => "expression"
    | .atom => "atom"
    | .operation => "infix"
  body
    | .expression, slot => expression slot
    | .atom, _ => atom
    | .operation, slot => operation slot
  hash
    | .operand power => 2 * power
    | .operation power left => 2 * (4 * left.id + power) + 1
  sameState
    | .operand power, .operand power' => power == power'
    | .operation power left, .operation power' left' => power == power' && left == left'
    | _, _ => false
  nodesOf
    | .operand _ => []
    | .operation _ left => [left]
  errorMessage := .error
  lexerError position := .error s!"unexpected input at {position}"
  unhandledError fault := .error fault.describe
  isError := isError
  skips := [blank]
  startRule := .expression
  startState := .operand 0

/-! ## Showing and evaluating trees -/

/-- A tree with parentheses around every operation. -/
def render : Tree Label Char → String
  | .node (.number value) _ _ => toString value
  | .node (.binary operator) [left, right] _ =>
    "(" ++ render left ++ " " ++ String.singleton operator ++ " " ++ render right ++ ")"
  | .node _ _ _ => "<error>"

/-- The value of a tree in floating point.  An error has no number for its value. -/
def evaluate : Tree Label Char → Float
  | .node (.number value) _ _ => Float.ofNat value
  | .node (.binary operator) [left, right] _ =>
    let first := evaluate left
    let second := evaluate right
    match operator with
    | '+' => first + second
    | '-' => first - second
    | '*' => first * second
    | _ => first / second
  | .node _ _ _ => 0.0 / 0.0

end Calculator

end Reparse
