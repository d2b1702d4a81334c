import Reparse.Parsing.Document
import Reparse.Text.Alphanumeric
import Reparse.Text.Quoted

/-!
# Bracketed lists of words

A text is a list of items.  An item is a word, a tag, or a list in brackets.  A
word is a run of alphanumeric characters, and a tag is a word behind a number
sign.  Blanks and line ends are skipped.

A list goes on until the text ends, a closing bracket follows, or an item has
consumed nothing.  An exclamation mark makes its item break down, and a question
mark makes it pass on an error.  A lone number sign is a token that fails
without a message.  So every way for a rule to fail can be met in one grammar.
-/

namespace Reparse

namespace Words

inductive Rule where
  | items
  | item
deriving DecidableEq, Repr

inductive Label where
  | word (text : String)
  | group
  | error (text : String)
deriving DecidableEq, Repr

/-- No rule needs a state.  Skip values are the characters skipped. -/
abbrev vocabulary : Vocabulary where
  Rule := Rule
  State := Unit
  Label := Label
  Skip := Char

abbrev Node := vocabulary.Node

/-! ## Tokens -/

def symbol (char : Char) : Token Char :=
  Token.exactly char ("expected '" ++ String.singleton char ++ "'")

def blank : Token Char :=
  Token.satisfy (fun char => char == ' ' || char == '\n') "expected whitespace"

def word : Token String := do
  let chars ← Token.takeWhile Text.isAlphanumeric
  if chars.isEmpty then Token.refuse "expected a word" else return String.ofList chars

def tag : Token String := do
  let _ ← symbol '#'
  let chars ← Token.takeWhile Text.isAlphanumeric
  if chars.isEmpty then Token.fail else return String.ofList ('#' :: chars)

/-! ## Rules -/

abbrev RuleBody := Body vocabulary (Content Label Char)

/-- Items up to the end of the list.  An item without length ends it. -/
def items : RuleBody := do
  let found ← Body.loop ([] : List Node) fun found => do
    if ← Body.atEnd then return (found, false)
    if ← Body.isNext (symbol ']') then return (found, false)
    let item ← Body.parse .item ()
    return (item :: found, item.length != 0)
  return ⟨.group, found.reverse⟩

def item : RuleBody := do
  if ← Body.isNext (symbol '[') then
    let _ ← Body.lex (symbol '[')
    let inner ← Body.parse .items ()
    let _ ← Body.lex (symbol ']')
    Body.adopt inner
  else if ← Body.isNext (symbol '#') then
    return ⟨.word (← Body.lex tag), []⟩
  else if ← Body.isNext (symbol '!') then
    let _ ← Body.lex (symbol '!')
    Body.panic (some "bang")
  else if ← Body.isNext (symbol '?') then
    let _ ← Body.lex (symbol '?')
    Body.foreign "invalid digit found in string"
  else
    return ⟨.word (← Body.lex word), []⟩

def grammar : Grammar vocabulary where
  name
    | .items => "items"
    | .item => "item"
  body
    | .items, _ => items
    | .item, _ => item
  hash _ := 0
  sameState _ _ := true
  nodesOf _ := []
  errorMessage := .error
  lexerError position := .error s!"lexer error at {position}"
  unhandledError fault := .error ("internal: " ++ fault.describe)
  isError
    | .error _ => true
    | _ => false
  skips := [blank]
  startRule := .items
  startState := ()

/-! ## Showing trees -/

mutual

/-- Words as they are, groups in brackets, and a sign for each error. -/
def shape : Tree Label Char → String
  | .node (.word text) _ _ => text
  | .node .group children _ => "[" ++ " ".intercalate (shapes children) ++ "]"
  | .node (.error _) _ _ => "<error>"

def shapes : List (Tree Label Char) → List String
  | [] => []
  | tree :: trees => shape tree :: shapes trees

end

def describeSkips (skips : List Char) : String :=
  "[" ++ ", ".intercalate (skips.map Quoted.char) ++ "]"

mutual

/-- A tree with the current place of each node. -/
def describe (describeCursor : Cursor → String) : Tree Label Char → String
  | .node label children origin =>
    let content := match label with
      | .word text => "Word(" ++ Quoted.text text ++ ")"
      | .error text => "Error(" ++ Quoted.text text ++ ")"
      | .group => "Group([" ++ ", ".intercalate (describeAll describeCursor children) ++ "])"
    "Spanned \x7b node: " ++ content ++ ", start: " ++ describeCursor origin.start ++
      s!", len: {origin.length}, id: NodeId({origin.id}), skipped_before: " ++
      describeSkips origin.before ++ ", skipped_after: " ++ describeSkips origin.after ++
      ", .. \x7d"

def describeAll (describeCursor : Cursor → String) : List (Tree Label Char) → List String
  | [] => []
  | tree :: trees => describe describeCursor tree :: describeAll describeCursor trees

end

end Words

end Reparse
