import Reparse.Rope.Navigation
import Reparse.Rope.Split

/-!
# Ropes

A store holds any number of buffers.  A rope is a version of a text: a root in
one of the buffers.  The result of joining or replacing lies in the buffer of
the first rope, and text of a rope in another buffer is copied.

A position is a settled place in one of the buffers.  It holds for the version
that is the newest at the moment, and an edit may make it meaningless.
Positions of one version are equal when their indices are.
-/

namespace Reparse

/-- Number of a buffer in its store. -/
abbrev BufferId := Nat

/-- A version of a text. -/
structure Rope where
  buffer : BufferId
  root : NodeId
deriving DecidableEq, Repr, Inhabited

/-- A place in one of the buffers of a store. -/
structure Position where
  buffer : BufferId
  place : Place
deriving DecidableEq, Repr, Inhabited

structure Store where
  buffers : Array Buffer := #[]
deriving Repr, Inhabited

namespace Store

def buffer (store : Store) (id : BufferId) : Buffer :=
  store.buffers[id]?.getD {}

/-- Change one buffer, and answer what the change answers.  The buffer is out of
the store meanwhile, so that it can be changed in place. -/
def update {α : Type} (store : Store) (id : BufferId) (change : Buffer → α × Buffer) : α × Store :=
  let buffer := store.buffer id
  let others := store.buffers.setIfInBounds id {}
  let (answer, changed) := change buffer
  (answer, ⟨others.setIfInBounds id changed⟩)

def newBuffer (store : Store) : BufferId × Store :=
  (store.buffers.size, { store with buffers := store.buffers.push {} })

/-! ## Ropes -/

/-- A rope of one leaf in a buffer. -/
def rope (store : Store) (id : BufferId) (text : String) : Rope × Store :=
  let (root, grown) := store.update id (·.addLeaf text.toList.toArray)
  (⟨id, root⟩, grown)

/-- A rope of one leaf in a buffer of its own. -/
def newRope (store : Store) (text : String) : Rope × Store :=
  let (id, grown) := store.newBuffer
  grown.rope id text

def length (store : Store) (rope : Rope) : Nat :=
  (store.buffer rope.buffer).length rope.root

def text (store : Store) (rope : Rope) : String :=
  String.ofList ((store.buffer rope.buffer).text rope.root)

/-- The text of each leaf, from left to right. -/
def leaves (store : Store) (rope : Rope) : List String :=
  let buffer := store.buffer rope.buffer
  (buffer.leaves rope.root).map fun leaf => String.ofList (buffer.leafText leaf).toList

/-- The character at an index, if the rope is that long. -/
def charAt (store : Store) (rope : Rope) (index : Nat) : Option Char :=
  (store.buffer rope.buffer).charAt rope.root index

/-- A rope as it is put next to ropes of a given buffer. -/
def piece (store : Store) (id : BufferId) (rope : Rope) : Piece :=
  if rope.buffer = id then .tree rope.root
  else .text ((store.buffer rope.buffer).text rope.root).toArray

def concat (store : Store) (first second : Rope) : Rope × Store :=
  let piece := store.piece first.buffer second
  let (root, joined) := store.update first.buffer (·.concat first.root piece)
  (⟨first.buffer, root⟩, joined)

/-- The two parts of a rope, as ropes of their own. -/
def split (store : Store) (rope : Rope) (index : Nat) : Except RangeError (Rope × Rope) × Store :=
  let (answer, changed) := store.update rope.buffer (·.split rope.root index)
  (answer.map fun (left, right) => (⟨rope.buffer, left⟩, ⟨rope.buffer, right⟩), changed)

/-- The rope after an edit, and the characters that the edit cut out. -/
structure Replaced where
  replaced : Rope
  removed : Rope
deriving Repr

/-- Replace the characters from `start` up to `stop` by those of another rope.  A
cursor outside the range keeps its character in the new rope.  A cursor inside
goes along with the removed characters. -/
def replace (store : Store) (rope : Rope) (start stop : Nat) (replacement : Rope) :
    Except RangeError Replaced × Store :=
  let piece := store.piece rope.buffer replacement
  let (answer, changed) :=
    store.update rope.buffer (·.replace rope.root start stop piece)
  (answer.map fun edit => ⟨⟨rope.buffer, edit.replaced⟩, ⟨rope.buffer, edit.removed⟩⟩, changed)

/-! ## Positions -/

/-- The settled position of an index that the rope has. -/
def positionAt (store : Store) (rope : Rope) (index : Nat) : Position :=
  let buffer := store.buffer rope.buffer
  ⟨rope.buffer, buffer.settle (buffer.locate rope.root index)⟩

/-- The position of an index, up to and including the end of the rope. -/
def positionAt? (store : Store) (rope : Rope) (index : Nat) : Except RangeError Position :=
  let length := store.length rope
  if length < index then .error (.outOfBounds index length)
  else .ok (store.positionAt rope index)

def indexOf (store : Store) (position : Position) : Nat :=
  (store.buffer position.buffer).indexOf position.place

def peek (store : Store) (position : Position) : Option Char :=
  (store.buffer position.buffer).peek position.place

/-- Both positions lie in the same newest version, and none was cut out of it. -/
def sameDocument (store : Store) (first second : Position) : Bool :=
  first.buffer == second.buffer &&
    (let buffer := store.buffer first.buffer
    buffer.rootOf first.place.leaf == buffer.rootOf second.place.leaf)

/-- The text that a walk of `count` characters passes over, and the position after it. -/
def readFrom (store : Store) (position : Position) (count : Nat) : String × Position :=
  let (chars, place) := (store.buffer position.buffer).forward position.place count
  (String.ofList chars, ⟨position.buffer, place⟩)

/-- The position `count` characters back, or the start of the text. -/
def backFrom (store : Store) (position : Position) (count : Nat) : Position :=
  ⟨position.buffer, (store.buffer position.buffer).backward position.place count⟩

end Store

end Reparse
