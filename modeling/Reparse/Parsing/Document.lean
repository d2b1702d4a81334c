import Reparse.Parsing.Invocation
import Reparse.Parsing.Reference

/-!
# Documents

A document is a text that is edited and parsed again.  Its edits are logged,
and the next parse uses again what lies away from them.

Before a parse every kept node is dropped that touches a pending edit, or that
an edit has cut out of the text.  Otherwise a node that the parse does not
visit could come back later, when the log no longer tells of the edit.  After
the parse the memos are swept down to what it reached, so they do not grow with
the history of the text.

Compacting moves the text to a new buffer, which leaves behind the nodes of all
earlier versions.
-/

namespace Reparse

/-- A text with what its parser remembers, the edits since the last parse, and
the tree of that parse. -/
structure Document (V : Vocabulary) where
  session : Session V
  rope : Rope
  log : EditLog := {}
  tree : Option V.Node := none

namespace Document

variable {V : Vocabulary}

def ofString (text : String) : Document V :=
  let (rope, store) := ({} : Store).newRope text
  { session := { store }, rope }

def text (document : Document V) : String := document.session.store.text document.rope

/-- Replace the characters from `start` up to `stop`, and answer the old ones.
If the range is refused the text stays as it was. -/
def replace (document : Document V) (grammar : Grammar V) (start stop : Nat) (text : String) :
    Except RangeError String × Document V :=
  let session := document.session.releaseUnused grammar document.tree.toList []
  let (insertion, store) := session.store.rope document.rope.buffer text
  match store.replace document.rope start stop insertion with
  | (.error error, refused) =>
    (.error error, { document with session := { session with store := refused } })
  | (.ok edit, edited) =>
    let log := document.log.record ⟨start, stop, store.length insertion⟩
    (.ok (edited.text edit.removed),
      { document with session := { session with store := edited }, rope := edit.replaced, log })

/-- A span comes within a margin of a pending edit. -/
def isEdited (document : Document V) (margin : Nat) (span : Range) : Bool :=
  document.log.overlaps span margin

/-- Drop the nodes that pending edits have touched or cut out. -/
def evictEdited (document : Document V) (margin : Nat) : Session V :=
  let store := document.session.store
  if document.log.isEmpty then document.session
  else
    let origin := store.positionAt document.rope 0
    (document.session.evict fun node =>
      !store.sameDocument (store.position node.start) origin ||
        document.isEdited margin (node.range store)).2

/-- Parse the current text. -/
def parse (document : Document V) (parser : Parser V) : V.Node × Document V :=
  let margin := parser.config.editMargin
  let session := (document.evictEdited margin).beginSweep
  let start := session.store.positionAt document.rope 0
  let ((tree, _), parsed) :=
    parser.parse (document.isEdited margin) parser.grammar.startRule parser.grammar.startState
      start session
  (tree, { document with session := parsed.sweep.2, log := {}, tree := some tree })

/-- Move the text to a new buffer.  The next parse starts from nothing. -/
def compact (document : Document V) : Document V :=
  let (rope, store) := document.session.store.newRope document.text
  let session := { document.session.clearCache with store }
  { session, rope }

/-- The tree that a new document with the same text would have. -/
def freshTree (document : Document V) (parser : Parser V) : V.Node :=
  ((ofString document.text).parse parser).1

end Document

end Reparse
