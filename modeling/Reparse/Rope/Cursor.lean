import Reparse.Rope.Store

/-!
# Cursors

A cursor is an anchor in one of the buffers: a position that follows its
character through every edit of the newest version.  Reading from a cursor
makes another cursor at the end of what was read.  A cursor may also be moved
in place, which needs no other anchor.

An edit leaves an anchor where its split put it, and that may be the end of a
leaf that has got a neighbour since.  The position of a cursor is therefore
settled each time it is asked for.  Two cursors are equal when their positions
are.

A cursor lives until it is released.  The number of live cursors of a buffer
can be asked for, and a split that moves none of them leaves the revision of
the buffer as it was.
-/

namespace Reparse

/-- A position that follows its character through edits. -/
structure Cursor where
  buffer : BufferId
  anchor : AnchorId
deriving DecidableEq, Repr, Inhabited

namespace Store

/-- Make a cursor at a position. -/
def cursorAt (store : Store) (position : Position) : Cursor × Store :=
  let (anchor, grown) := store.update position.buffer (·.addAnchor position.place)
  (⟨position.buffer, anchor⟩, grown)

/-- Give a cursor up. -/
def release (store : Store) (cursor : Cursor) : Store :=
  (store.update cursor.buffer fun buffer => ((), buffer.releaseAnchor cursor.anchor)).2

/-- Where a cursor is now. -/
def position (store : Store) (cursor : Cursor) : Position :=
  let buffer := store.buffer cursor.buffer
  ⟨cursor.buffer, buffer.settle ((buffer.anchor? cursor.anchor).getD default)⟩

/-- The index of a cursor in the newest version that holds it. -/
def index (store : Store) (cursor : Cursor) : Nat :=
  store.indexOf (store.position cursor)

/-- A cursor at an index of a rope, up to and including its end. -/
def cursor (store : Store) (rope : Rope) (index : Nat) : Except RangeError Cursor × Store :=
  match store.positionAt? rope index with
  | .ok position =>
    let (cursor, grown) := store.cursorAt position
    (.ok cursor, grown)
  | .error error => (.error error, store)

/-- Another cursor at the position of a cursor. -/
def copy (store : Store) (cursor : Cursor) : Cursor × Store :=
  store.cursorAt (store.position cursor)

/-- Up to `count` characters, and a cursor past them. -/
def read (store : Store) (cursor : Cursor) (count : Nat) : (String × Cursor) × Store :=
  let (text, stop) := store.readFrom (store.position cursor) count
  let (past, grown) := store.cursorAt stop
  ((text, past), grown)

/-- A cursor `count` characters back, or at the start of the text. -/
def back (store : Store) (cursor : Cursor) (count : Nat) : Cursor × Store :=
  store.cursorAt (store.backFrom (store.position cursor) count)

/-! ## Moving in place -/

/-- Move a cursor to a place of its buffer. -/
def seat (store : Store) (cursor : Cursor) (place : Place) : Store :=
  (store.update cursor.buffer fun buffer => ((), buffer.moveAnchor cursor.anchor place)).2

/-- Read up to `count` characters and move past them. -/
def advance (store : Store) (cursor : Cursor) (count : Nat) : String × Store :=
  let (text, stop) := store.readFrom (store.position cursor) count
  (text, store.seat cursor stop.place)

/-- Consume one character.  At the end of the text the cursor stays as it is. -/
def advanceChar (store : Store) (cursor : Cursor) : Option Char × Store :=
  let position := store.position cursor
  match store.peek position with
  | some char => (some char, store.seat cursor (store.readFrom position 1).2.place)
  | none => (none, store)

/-- Move back `count` characters, or to the start of the text. -/
def retreat (store : Store) (cursor : Cursor) (count : Nat) : Store :=
  store.seat cursor (store.backFrom (store.position cursor) count).place

end Store

end Reparse
