import Std.Data.TreeSet
import Reparse.Parsing.Session

/-!
# Cursors in use

A cursor is in use for as long as something refers to it: a kept node, a state
that a memo was filled under, a tree that the caller holds on to, or a cursor
that the caller has made.  Only an edit can tell whether a cursor is alive, by
the anchors that it moves.  The cursors that are out of use are therefore
released just before an edit.
-/

namespace Reparse

instance : Ord Cursor where
  compare := compareLex (compareOn fun cursor => cursor.buffer)
    (compareOn fun cursor => cursor.anchor)

/-- The cursors found to be in use, and the nodes looked at so far. -/
structure Reached where
  cursors : Std.TreeSet Cursor := {}
  nodes : Std.TreeSet Nat := {}

mutual

/-- Add the cursors of a tree.  A node that was looked at before is passed over. -/
def Tree.reach {α κ : Type} : Tree α κ → Reached → Reached
  | .node _ children origin, ⟨cursors, nodes⟩ =>
    if nodes.contains origin.id then ⟨cursors, nodes⟩
    else
      Tree.reachAll children
        ⟨(cursors.insert origin.start).insert origin.stop, nodes.insert origin.id⟩

def Tree.reachAll {α κ : Type} : List (Tree α κ) → Reached → Reached
  | [], reached => reached
  | tree :: trees, reached => Tree.reachAll trees (Tree.reach tree reached)

end

namespace Store

/-- Release every anchor of a buffer that is not wanted. -/
def releaseExcept (store : Store) (wanted : Cursor → Bool) (id : BufferId) : Store :=
  (store.update id fun buffer =>
    ((), (List.range buffer.anchors.size).foldl
      (fun buffer anchor =>
        if wanted ⟨id, anchor⟩ then buffer else buffer.releaseAnchor anchor) buffer)).2

end Store

namespace Session

variable {V : Vocabulary}

/-- The nodes that the memos refer to. -/
def heldNodes (session : Session V) (grammar : Grammar V) : List V.Node :=
  session.memos.flatMap fun (_, memo) =>
    memo.buckets.flatMap fun bucket =>
      grammar.nodesOf bucket.state ++ bucket.live.map Entry.node

/-- The cursors at the ends of the kept nodes. -/
def heldCursors (session : Session V) : List Cursor :=
  session.entries.flatMap fun entry => [entry.node.start, entry.node.stop]

/-- Release all cursors but those of the memos, of the given trees, and the
given ones. -/
def releaseUnused (session : Session V) (grammar : Grammar V) (trees : List V.Node)
    (cursors : List Cursor) : Session V :=
  let own : Reached := { cursors := (session.heldCursors ++ cursors).foldl (·.insert ·) {} }
  let reached := Tree.reachAll (session.heldNodes grammar ++ trees) own
  let store := (List.range session.store.buffers.size).foldl
    (·.releaseExcept reached.cursors.contains ·) session.store
  { session with store }

end Session

end Reparse
