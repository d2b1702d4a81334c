import Reparse.Parsing.Session

/-!
# Invoking a rule

An invocation first looks for a node that was kept for the same rule, the same
state and the same position.  If there is none it consumes skip tokens, runs
the body of the rule, consumes skip tokens again, and keeps the node made of
the result.  A body that stops early yields an error node, at the place that it
had reached.

Bodies nest.  When as many bodies are running as the parser allows, a further
one is not run, and its invocation yields an error node in its stead.  That node
is kept like any other.
-/

namespace Reparse

/-- The limits of a parser: how deep bodies may nest, and how close to an edit
a kept node is no longer used. -/
structure Config where
  maxDepth : Nat := 4096
  editMargin : Nat := 1
deriving DecidableEq, Repr

/-- A grammar and the limits it is used with. -/
structure Parser (V : Vocabulary) where
  grammar : Grammar V
  config : Config := {}

variable {V : Vocabulary}

/-- What an invocation answers: a node and the position after it. -/
abbrev Reply (V : Vocabulary) := (V.Node × Position) × Session V

/-- How a body invokes another rule. -/
abbrev Descent (V : Vocabulary) := V.Rule → V.State → Position → Session V → Reply V

/-- The state of a running body: the session, the current place, the skip values
taken over so far, and the places remembered. -/
structure Frame (V : Vocabulary) where
  session : Session V
  place : Place
  before : List V.Skip := []
  after : List V.Skip := []
  marks : Array Place := #[]

namespace Frame

variable {α : Type}

/-- Lexing moves the place, or leaves it where it was. -/
def settleLexed (frame : Frame V) (lexed : Except LexError (α × Place)) :
    Except LexError α × Frame V :=
  match lexed with
  | .ok (value, place) => (.ok value, { frame with place })
  | .error error => (.error error, frame)

/-- Do what a body asks for, in the given buffer. -/
def handle (buffer : BufferId) (descend : Descent V) : Action V α → Frame V → α × Frame V
  | .lex token, frame =>
    frame.settleLexed (token.lex (frame.session.store.buffer buffer) frame.place)
  | .isNext token, frame =>
    (token.isNext (frame.session.store.buffer buffer) frame.place, frame)
  | .lexFirst tokens message, frame =>
    frame.settleLexed
      (Token.lexFirst tokens (frame.session.store.buffer buffer) frame.place message)
  | .parse rule state, ⟨session, place, before, after, marks⟩ =>
    match descend rule state ⟨buffer, place⟩ session with
    | ((node, stop), changed) => (node, ⟨changed, stop.place, before, after, marks⟩)
  | .adoptSkips node, frame =>
    ((), { frame with
      before := frame.before ++ node.origin.before
      after := frame.after ++ node.origin.after })
  | .mark, frame => (frame.marks.size, { frame with marks := frame.marks.push frame.place })
  | .restore mark, frame => ((), { frame with place := frame.marks[mark]?.getD frame.place })
  | .place, frame => (frame.place, frame)
  | .position, frame => ((frame.session.store.buffer buffer).indexOf frame.place, frame)
  | .atEnd, frame => (((frame.session.store.buffer buffer).peek frame.place).isNone, frame)

def rounds (buffer : BufferId) (frame : Frame V) : Nat :=
  (frame.session.store.buffer buffer).roundsFrom frame.place

/-- Run a body to its end. -/
def run (buffer : BufferId) (descend : Descent V) (body : Body V α) (frame : Frame V) :
    Except Stop α × Frame V :=
  Program.run (handle buffer descend) (rounds buffer) body.run frame

/-- A body that goes on for ever takes its session with it. -/
def noteStop (frame : Frame V) (stop : Stop) : Frame V :=
  if stop = .endless then { frame with session := { frame.session with endless := true } }
  else frame

end Frame

namespace Parser

/-- Run a rule that may invoke others by `descend`, or refuse to run it. -/
def runRule (parser : Parser V) (descend : Option (Descent V)) (rule : V.Rule) (state : V.State)
    (buffer : BufferId) (frame : Frame V) : Content V.Label V.Skip × Frame V :=
  match descend with
  | none =>
    let fault := .tooDeep (parser.grammar.name rule) parser.config.maxDepth
    (⟨parser.grammar.unhandledError fault, []⟩, frame)
  | some descend =>
    match frame.run buffer descend (parser.grammar.body rule state) with
    | (.ok content, reached) => (content, reached)
    | (.error stop, reached) => (parser.grammar.failureOf rule stop, reached.noteStop stop)

/-- Answer an invocation for which no node was kept. -/
def execute (parser : Parser V) (descend : Option (Descent V)) (rule : V.Rule) (state : V.State)
    (start : Position) (session : Session V) : Reply V :=
  let id := start.buffer
  let (leading, place) :=
    Token.skipFrom parser.grammar.skips (session.store.buffer id) start.place
  match parser.runRule descend rule state id { session, place } with
  | (content, ⟨session, place, before, after, _⟩) =>
    let (trailing, last) := Token.skipFrom parser.grammar.skips (session.store.buffer id) place
    let stop : Position := ⟨id, last⟩
    let key := parser.grammar.stateKey state
    match session.keep rule key start stop content (leading ++ before) (after ++ trailing) with
    | (node, session) =>
      let refused := if descend.isNone then node.id :: session.refused else session.refused
      ((node, stop), { session with refused })

/-- Answer an invocation. -/
def visit (parser : Parser V) (isStale : Range → Bool) (descend : Option (Descent V))
    (rule : V.Rule) (state : V.State) (start : Position) (session : Session V) : Reply V :=
  match session.reuse rule (parser.grammar.stateKey state) start isStale with
  | (some found, session) => (found, session)
  | (none, session) => parser.execute descend rule state start session

/-- Invoke a rule when a given number of bodies may still nest. -/
def invoke (parser : Parser V) (isStale : Range → Bool) : Nat → Descent V
  | 0 => parser.visit isStale none
  | depth + 1 => parser.visit isStale (some (parser.invoke isStale depth))

/-- Parse a rule at a position. -/
def parse (parser : Parser V) (isStale : Range → Bool) (rule : V.Rule) (state : V.State)
    (start : Position) (session : Session V) : Reply V :=
  parser.invoke isStale parser.config.maxDepth rule state start session

end Parser

end Reparse
