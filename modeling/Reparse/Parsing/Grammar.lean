import Reparse.Parsing.Fault
import Reparse.Parsing.Tree

/-!
# Grammars and their rules

A grammar gives each of its rules a name, a body and a notion of when two
states are the same.  A rule is invoked with a state, and its result depends on
the rule, the state and the text from the position on.  Results are kept under
the state, first by a hash and then by comparing.

A body is a program over the actions below.  It may lex tokens, invoke rules,
and go back to a place it was at before.  Such a place goes by the number of
its mark, so a body can reach no place that its own invocation has not been at.
Taking over the skip values of a node is not undone by going back.
-/

namespace Reparse

/-- The types a grammar is made of: its rules, the states they are invoked
with, the labels of its nodes and the values of its skip tokens. -/
structure Vocabulary where
  Rule : Type
  State : Type
  Label : Type
  Skip : Type
  [decideRule : DecidableEq Rule]

attribute [instance] Vocabulary.decideRule

namespace Vocabulary

abbrev Node (V : Vocabulary) := Tree V.Label V.Skip

end Vocabulary

/-- What the body of a rule may do. -/
inductive Action (V : Vocabulary) : Type → Type 1 where
  /-- Lex a token and move past it. -/
  | lex {α : Type} (token : Token α) : Action V (Except LexError α)
  /-- Ask whether a token would match.  Nothing is consumed. -/
  | isNext {α : Type} (token : Token α) : Action V Bool
  /-- Lex the first token that matches. -/
  | lexFirst {α : Type} (tokens : List (Token α)) (message : String) : Action V (Except LexError α)
  /-- Invoke a rule with a state and move past its node. -/
  | parse (rule : V.Rule) (state : V.State) : Action V V.Node
  /-- Take over the skip values of a node. -/
  | adoptSkips (node : V.Node) : Action V Unit
  /-- Remember the current place, and answer the number it is remembered by. -/
  | mark : Action V Nat
  /-- Go back to a place that this invocation remembers. -/
  | restore (mark : Nat) : Action V Unit
  /-- The current place, for descriptions. -/
  | place : Action V Place
  /-- The index of the current place. -/
  | position : Action V Nat
  /-- Whether nothing follows. -/
  | atEnd : Action V Bool

/-- The body of a rule: it makes an `α` or stops early. -/
abbrev Body (V : Vocabulary) (α : Type) := ExceptT Stop (Program (Action V)) α

namespace Body

variable {V : Vocabulary} {α : Type}

def act (action : Action V α) : Body V α := ExceptT.lift (.perform action)

/-- Give up. -/
def giveUp (reason : Abort) : Body V α := throw (.abort reason)

/-- Give up with a message. -/
def refuse (message : String) : Body V α := giveUp (.message message)

/-- Pass on an error from elsewhere. -/
def foreign (text : String) : Body V α := giveUp (.foreign text)

/-- Break down. -/
def panic (payload : Option String) : Body V α := throw (.panic payload)

def ofLexed (result : Except LexError α) : Body V α :=
  match result with
  | .ok value => pure value
  | .error error => giveUp error.toAbort

def lex (token : Token α) : Body V α := do ofLexed (← act (.lex token))

def isNext (token : Token α) : Body V Bool := act (.isNext token)

def lexFirst (tokens : List (Token α)) (message : String) : Body V α := do
  ofLexed (← act (.lexFirst tokens message))

def parse (rule : V.Rule) (state : V.State) : Body V V.Node := act (.parse rule state)

/-- Make the content and the skip values of a node one's own. -/
def adopt (node : V.Node) : Body V (Content V.Label V.Skip) := do
  act (.adoptSkips node)
  return node.content

def mark : Body V Nat := act .mark

def restore (mark : Nat) : Body V Unit := act (.restore mark)

def place : Body V Place := act .place

def position : Body V Nat := act .position

def atEnd : Body V Bool := act .atEnd

/-- Repeat a part of a body for as long as it asks for it.  A part that still
asks when it has gone round more often than there are places in the text gets
nowhere, and the body goes on for ever. -/
def loop (start : α) (part : α → Body V (α × Bool)) : Body V α := do
  let (answer, again) ← Program.loopUntilFailure (start, true) fun (answer, _) => do
    let (next, again) ← part answer
    return ((next, again), again)
  if again then throw .endless else return answer

end Body

/-- A grammar over a vocabulary. -/
structure Grammar (V : Vocabulary) where
  name : V.Rule → String
  body : V.Rule → V.State → Body V (Content V.Label V.Skip)
  /-- Only states with the same hash are compared. -/
  hash : V.State → Nat
  sameState : V.State → V.State → Bool
  /-- The nodes that a state refers to. -/
  nodesOf : V.State → List V.Node
  errorMessage : String → V.Label
  lexerError : Nat → V.Label
  unhandledError : Fault → V.Label
  isError : V.Label → Bool
  /-- Tried in this order around every rule. -/
  skips : List (Token V.Skip)
  startRule : V.Rule
  startState : V.State

namespace Grammar

variable {V : Vocabulary}

/-- The content of a node whose rule stopped early.  A rule that goes on for
ever makes no node, and what stands for one is never looked at. -/
def failureOf (grammar : Grammar V) (rule : V.Rule) : Stop → Content V.Label V.Skip
  | .abort (.message text) => ⟨grammar.errorMessage text, []⟩
  | .abort (.lexer position) => ⟨grammar.lexerError position, []⟩
  | .abort (.foreign text) => ⟨grammar.unhandledError (.foreign (grammar.name rule) text), []⟩
  | .panic payload =>
    ⟨grammar.unhandledError (.panic (grammar.name rule) (Fault.panicMessage payload)), []⟩
  | .endless => ⟨grammar.errorMessage "", []⟩

end Grammar

end Reparse
