import Reparse.Lexing.Token

/-!
# Failures of a rule

A rule may stop before it has made a node.  It may give up, because a token
failed, for a reason of its own or because of an error from elsewhere.  It may
also break down.  A grammar turns each of these into the label of an error
node, so that a parse always ends in a whole tree.

A fault is a failure that the grammar did not foresee: a breakdown, an error
from elsewhere, or a nesting deeper than the parser allows.

A rule that goes on for ever makes no node at all.  Here it stops like the
others, so that running it is a computation with an end, but it stops in a way
that nothing later takes for an answer.
-/

namespace Reparse

/-- Why a rule gave up. -/
inductive Abort where
  | message (text : String)
  /-- A token failed without a message, at an index. -/
  | lexer (position : Nat)
  /-- An error from elsewhere, with its text. -/
  | foreign (text : String)
deriving DecidableEq, Repr

def LexError.toAbort : LexError → Abort
  | .message text => .message text
  | .failed position => .lexer position

/-- How a rule stopped early.  A breakdown carries a text or nothing readable. -/
inductive Stop where
  | abort (reason : Abort)
  | panic (payload : Option String)
  /-- It would have gone on for ever. -/
  | endless
deriving DecidableEq, Repr

/-- A failure that is shown to the grammar with the name of the rule. -/
inductive Fault where
  | panic (rule message : String)
  | foreign (rule text : String)
  | tooDeep (rule : String) (limit : Nat)
deriving DecidableEq, Repr

namespace Fault

def rule : Fault → String
  | .panic rule _ => rule
  | .foreign rule _ => rule
  | .tooDeep rule _ => rule

def describe : Fault → String
  | .panic rule message => "rule `" ++ rule ++ "` panicked: " ++ message
  | .foreign rule text => "rule `" ++ rule ++ "` failed: " ++ text
  | .tooDeep rule limit =>
    "rule `" ++ rule ++ "` exceeded the maximum nesting depth of " ++ toString limit

/-- The message of a breakdown, also where it left none. -/
def panicMessage (payload : Option String) : String := payload.getD "non-string panic payload"

end Fault

end Reparse
