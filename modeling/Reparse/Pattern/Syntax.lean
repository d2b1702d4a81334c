import Reparse.Parsing.Invocation
import Reparse.Pattern.Matcher
import Reparse.Text.Numeral

/-!
# The language of patterns

Patterns are written in a language of their own, and are parsed by a grammar
like any other.  From the loosest to the tightest its operators are the bar
between alternatives, writing side by side, and the postfix operators: star,
plus, question mark, and a count in braces.  Parentheses group.  A class in
square brackets lists characters and ranges.  A percent sign makes the next
character stand for itself.

A run of plain characters is one literal.  If a postfix operator follows, the
run gives up its last character, to which the operator then applies alone.

Operators are parsed by their binding power.  The rule for a pattern reads an
operand, and then invokes the rule for an operator again and again, with what
stands to the left as part of the state.  An operator that binds no tighter than
the pattern may hold fails, and is left for an outer pattern to read.
-/

namespace Reparse

namespace Pattern

/-- Largest count accepted in braces. -/
def maxRepeat : Nat := 1000

inductive Rule where
  | pattern
  | operand
  | operator
  | classItem
deriving DecidableEq, Repr

/-- Labels of the nodes of a parsed pattern.  Alternatives, the parts of a
sequence and the items of a class are children, and so is the one operand of a
postfix operator.  A count without an upper bound has no `most`. -/
inductive Label where
  | literal (text : List Char)
  | range (first last : Char)
  | charClass
  | union
  | concat
  | star
  | plus
  | optional
  | counted (least most : Option Nat)
  | error (reason : String)
deriving DecidableEq, Repr

abbrev Node := Tree Label Unit

/-- A place for an operand, or for an operator behind what stands to the left.
Both carry the binding power that an operator has to exceed. -/
inductive State where
  | operand (power : Nat)
  | operator (power : Nat) (left : Node)

abbrev vocabulary : Vocabulary where
  Rule := Rule
  State := State
  Label := Label
  Skip := Unit

/-! ## Tokens -/

/-- Characters with a meaning outside classes. -/
def isSpecial (char : Char) : Bool := "|*?+\x7b\x7d()[]".toList.contains char

/-- Characters that begin a postfix operator. -/
def isPostfix (char : Char) : Bool := "*+?\x7b".toList.contains char

def symbol (text : String) : Token String :=
  token (.literal text.toList) ("expected `" ++ text ++ "`")

def postfixOperator : Token String :=
  token (.union [.char '*', .char '+', .char '?']) "expected `*`, `+` or `?`"

/-- A run of digits, which may be empty. -/
def digits : Token String := token (.star (.range '0' '9')) "expected a number"

def danglingEscape : String := "dangling escape `%`"

/-- Collect plain and escaped characters.  The second part of the answer is how
many characters the last one was written with. -/
def literalRun : Token (List Char × Nat) :=
  Program.loopUntilFailure (([], 0) : List Char × Nat) fun (taken, width) => do
    match ← Token.peek with
    | none => return ((taken, width), false)
    | some char =>
      if isSpecial char then return ((taken, width), false)
      let _ ← Token.nextChar
      if char == '%' then
        match ← Token.nextChar with
        | some escaped => return ((escaped :: taken, 2), true)
        | none => Token.refuse danglingEscape
      else return ((char :: taken, 1), true)

/-- A literal.  In front of a postfix operator it keeps all but its last
character, unless it has only one. -/
def literal : Token (List Char) := do
  let (taken, width) ← literalRun
  if taken.isEmpty then Token.refuse "expected a literal"
  else if taken.length > 1 && (← Token.peek).any isPostfix then
    Token.back width
    return taken.tail.reverse
  else return taken.reverse

def classChar : Token Char := do
  match ← Token.nextChar with
  | some '%' =>
    match ← Token.nextChar with
    | some escaped => return escaped
    | none => Token.refuse danglingEscape
  | some ']' => Token.refuse "expected a class character"
  | some char => return char
  | none => Token.refuse "unterminated character class"

/-! ## Operators -/

inductive Operator where
  | union
  | concat
  | postfixed
  | counted
deriving DecidableEq, Repr

namespace Operator

def power : Operator → Nat
  | .union => 1
  | .concat => 2
  | .postfixed | .counted => 3

end Operator

abbrev RuleBody := Body vocabulary (Content Label Unit)

/-- The operator that stands here.  The start of an operand counts as writing
side by side. -/
def peekOperator : Body vocabulary (Option Operator) := do
  if ← Body.isNext (symbol "|") then return some .union
  if ← Body.isNext postfixOperator then return some .postfixed
  if ← Body.isNext (symbol "\x7b") then return some .counted
  if ← Body.isNext (symbol "(") then return some .concat
  if ← Body.isNext (symbol "[") then return some .concat
  if ← Body.isNext literal then return some .concat
  return none

/-- The operands of a union or a sequence.  A left operand of the same kind
hands its own operands on. -/
def joinOperands (label : Label) (left right : Node) : List Node :=
  if left.label = label then left.children ++ [right] else [left, right]

/-- The count written by digits, or none. -/
def readCount (text : String) : Body vocabulary (Option Nat) :=
  if text.isEmpty then return none
  else
    match Numeral.readNat (Numeral.greatestOf 64) text.toList with
    | .ok count => return some count
    | .error error => Body.foreign error.message

/-- The larger of two counts, where a missing one is the least of all. -/
def largerCount (least most : Option Nat) : Option Nat :=
  match least, most with
  | some first, some second => some (max first second)
  | some first, none => some first
  | none, second => second

/-- The operator in braces, from the opening brace on. -/
def countedRepetition (left : Node) : RuleBody := do
  let _ ← Body.lex (symbol "\x7b")
  let least ← readCount (← Body.lex digits)
  let most ← if ← Body.isNext (symbol ",") then do
      let _ ← Body.lex (symbol ",")
      readCount (← Body.lex digits)
    else pure least
  let _ ← Body.lex (symbol "\x7d")
  if let some largest := (largerCount least most).filter (maxRepeat < ·) then
    Body.refuse s!"repetition count {largest} exceeds the limit of {maxRepeat}"
  else
    match least, most with
    | none, none => Body.refuse "expected a repetition count"
    | some first, some second =>
      if second < first then
        Body.refuse s!"repetition lower bound {first} exceeds upper bound {second}"
      else return ⟨.counted least most, [left]⟩
    | _, _ => return ⟨.counted least most, [left]⟩

/-! ## Rules -/

def isError : Label → Bool
  | .error _ => true
  | _ => false

/-- An operand and the operators behind it that bind tight enough.  An operator
that fails after consuming something is malformed, and becomes the result. -/
def pattern : State → RuleBody
  | .operator _ _ => Body.refuse "pattern rule needs an operand state"
  | .operand power => do
    let first ← Body.parse .operand (.operand 0)
    if isError first.label then Body.adopt first
    else
      let last ← Body.loop first fun left => do
        let saved ← Body.mark
        let next ← Body.parse .operator (.operator power left)
        if isError next.label then
          if next.length > 0 then return (next, false)
          Body.restore saved
          return (left, false)
        else return (next, true)
      Body.adopt last

/-- The items of a class, behind its opening bracket. -/
def charClass : RuleBody := do
  let found ← Body.loop ([] : List Node) fun found => do
    if ← Body.isNext (symbol "]") then return (found, false)
    let item ← Body.parse .classItem (.operand 0)
    return (item :: found, !isError item.label)
  match found with
  | last :: _ =>
    if isError last.label then Body.adopt last
    else
      let _ ← Body.lex (symbol "]")
      return ⟨.charClass, found.reverse⟩
  | [] =>
    let _ ← Body.lex (symbol "]")
    return ⟨.charClass, []⟩

def operand : RuleBody := do
  if ← Body.isNext (symbol "(") then
    let _ ← Body.lex (symbol "(")
    let inner ← Body.parse .pattern (.operand 0)
    if !isError inner.label then
      let _ ← Body.lex (symbol ")")
    Body.adopt inner
  else if ← Body.isNext (symbol "[") then
    let _ ← Body.lex (symbol "[")
    charClass
  else return ⟨.literal (← Body.lex literal), []⟩

def classItem : RuleBody := do
  let first ← Body.lex classChar
  if ← Body.isNext (symbol "-") then
    let _ ← Body.lex (symbol "-")
    let last ← Body.lex classChar
    if last < first then
      Body.refuse ("character range `" ++ String.ofList [first, '-', last] ++ "` is inverted")
    else return ⟨.range first last, []⟩
  else return ⟨.literal [first], []⟩

def operator : State → RuleBody
  | .operand _ => Body.refuse "operator rule needs a left operand"
  | .operator power left => do
    match ← peekOperator with
    | none => Body.refuse "expected an operator"
    | some operator =>
      if operator.power ≤ power then Body.refuse "operator binds too loosely"
      else
        match operator with
        | .union =>
          let _ ← Body.lex (symbol "|")
          let right ← Body.parse .pattern (.operand operator.power)
          return ⟨.union, joinOperands .union left right⟩
        | .concat =>
          let right ← Body.parse .pattern (.operand operator.power)
          return ⟨.concat, joinOperands .concat left right⟩
        | .postfixed =>
          let sign ← Body.lex postfixOperator
          let label : Label := if sign = "*" then .star else if sign = "+" then .plus else .optional
          return ⟨label, [left]⟩
        | .counted => countedRepetition left

def grammar : Grammar vocabulary where
  name
    | .pattern => "pattern"
    | .operand => "operand"
    | .operator => "operator"
    | .classItem => "class item"
  body
    | .pattern, state => pattern state
    | .operand, _ => operand
    | .operator, state => operator state
    | .classItem, _ => classItem
  hash
    | .operand power => 2 * power
    | .operator power left => 2 * (4 * left.id + power) + 1
  sameState
    | .operand power, .operand power' => power == power'
    | .operator power left, .operator power' left' => power == power' && left == left'
    | _, _ => false
  nodesOf
    | .operand _ => []
    | .operator _ left => [left]
  errorMessage := .error
  lexerError position := .error s!"no token matched at {position}"
  unhandledError fault := .error fault.describe
  isError := isError
  skips := []
  startRule := .pattern
  startState := .operand 0

/-- The tree of a pattern, and the session in which its cursors live. -/
def parse (text : String) : Node × Session vocabulary :=
  let (rope, store) := ({} : Store).newRope text
  let parser : Parser vocabulary := { grammar }
  let ((tree, _), session) :=
    parser.parse (fun _ => false) .pattern (.operand 0) (store.positionAt rope 0) { store }
  (tree, session)

/-- Parsing a pattern comes to an end. -/
def ends (text : String) : Bool := !(parse text).2.endless

end Pattern

end Reparse
