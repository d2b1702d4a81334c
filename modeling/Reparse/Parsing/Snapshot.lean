import Reparse.Parsing.Invocation
import Reparse.Rope.Description

/-!
# Snapshots

A snapshot is a point from which a parse can go on: a cursor, a rule and a
state.  It is never changed.  Lexing and parsing from it make another snapshot
with the same rule and state, and it stays usable itself, through edits of its
text as well.
-/

namespace Reparse

structure Snapshot (V : Vocabulary) where
  cursor : Cursor
  rule : V.Rule
  state : V.State

namespace Snapshot

variable {V : Vocabulary}

/-- A snapshot with the rule and the state that a parser starts with. -/
def atStart (parser : Parser V) (position : Position) (session : Session V) :
    Snapshot V × Session V :=
  let (cursor, store) := session.store.cursorAt position
  (⟨cursor, parser.grammar.startRule, parser.grammar.startState⟩, { session with store })

/-- The same snapshot at another position. -/
def moveTo (snapshot : Snapshot V) (position : Position) (session : Session V) :
    Snapshot V × Session V :=
  let (cursor, store) := session.store.cursorAt position
  ({ snapshot with cursor }, { session with store })

def copy (snapshot : Snapshot V) (session : Session V) : Snapshot V × Session V :=
  snapshot.moveTo (session.store.position snapshot.cursor) session

/-- Lex a token here. -/
def lex {α : Type} (snapshot : Snapshot V) (token : Token α) (session : Session V) :
    Except LexError ((α × Snapshot V) × Session V) := do
  let position := session.store.position snapshot.cursor
  let (value, place) ← token.lex (session.store.buffer position.buffer) position.place
  let (next, grown) := snapshot.moveTo ⟨position.buffer, place⟩ session
  return ((value, next), grown)

/-- Invoke a rule here. -/
def parse (snapshot : Snapshot V) (parser : Parser V) (isStale : Range → Bool) (rule : V.Rule)
    (state : V.State) (session : Session V) : (V.Node × Snapshot V) × Session V :=
  let start := session.store.position snapshot.cursor
  let ((node, stop), parsed) := parser.parse isStale rule state start session
  let (next, grown) := snapshot.moveTo stop parsed
  ((node, next), grown)

/-- Invoke the snapshot's own rule with its own state. -/
def exec (snapshot : Snapshot V) (parser : Parser V) (isStale : Range → Bool)
    (session : Session V) : V.Node × Session V :=
  let start := session.store.position snapshot.cursor
  let ((node, _), parsed) :=
    parser.parse isStale snapshot.rule snapshot.state start session
  (node, parsed)

/-! ## Descriptions -/

def describeRuleName (name : String) : String := "Parselet(" ++ Quoted.text name ++ ")"

/-- A snapshot by the descriptions of its cursor, its state and its rule. -/
def description (cursor state rule : String) : String :=
  "Snapshot \x7b position: " ++ cursor ++ ", state: " ++ state ++ ", parselet: " ++
    Quoted.text rule ++ ", .. \x7d"

def describe (snapshot : Snapshot V) (grammar : Grammar V) (describeState : V.State → String)
    (store : Store) : String :=
  description (store.describeCursor snapshot.cursor) (describeState snapshot.state)
    (grammar.name snapshot.rule)

end Snapshot

end Reparse
