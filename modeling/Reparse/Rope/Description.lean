import Reparse.Rope.Cursor
import Reparse.Text.Quoted

/-!
# Descriptions of buffers, ropes and cursors

A description is for a reader who looks into a running program.  It names a
cursor by its index, and by the node and the offset where it settles.
-/

namespace Reparse

namespace Store

def describeBuffer (store : Store) (id : BufferId) : String :=
  let buffer := store.buffer id
  let nodes := buffer.nodeCount
  let cursors := buffer.liveAnchors
  let revision := buffer.revision
  s!"Buffer \x7b nodes: {nodes}, cursors: {cursors}, revision: {revision} \x7d"

def describeRope (store : Store) (rope : Rope) : String :=
  "Rope(" ++ Quoted.text (store.text rope) ++ ")"

def describePosition (store : Store) (position : Position) : String :=
  let index := store.indexOf position
  let leaf := position.place.leaf
  let offset := position.place.offset
  s!"Cursor \x7b index: {index}, leaf: {leaf}, offset: {offset} \x7d"

def describeCursor (store : Store) (cursor : Cursor) : String :=
  store.describePosition (store.position cursor)

/-- A cursor that is moved in place is described as such. -/
def describeMovable (store : Store) (cursor : Cursor) : String :=
  "CursorMut(" ++ store.describeCursor cursor ++ ")"

end Store

end Reparse
