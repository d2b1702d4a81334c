import Reparse.Rope.Anchor

/-!
# Splitting, joining and replacing

A subtree is split along the path to the split point.  The leaf there is cut
into two new leaves, and the branches above it are made again from the bottom
up.  The anchors of the cut leaf move to the half that now holds their
character.  Nothing else moves.

A version that was superseded must not be cut this way.  Some of its nodes
have meanwhile been adopted by a newer version, whose cursors and links would
be disturbed.  Such a version is split from a fresh copy of its text.

Two trees are joined under a new branch when they are different trees of one
buffer.  Text from elsewhere, and a tree that is to be joined with itself, is
copied into a new leaf first, because a node has only one parent.

A split or a replacement changes the buffer as it goes along.  So it answers the
buffer that it has come to also where it refuses a range.
-/

namespace Reparse

/-- Why an operation on a text was refused. -/
inductive RangeError where
  | outOfBounds (index length : Nat)
  | inverted (start stop : Nat)
deriving DecidableEq, Repr

namespace RangeError

def message : RangeError → String
  | .outOfBounds index length => s!"index {index} is out of bounds for a rope of length {length}"
  | .inverted start stop => s!"range start {start} is past its end {stop}"

end RangeError

/-- What is put next to a tree: a tree of the same buffer, or a text that the
buffer does not hold yet. -/
inductive Piece where
  | tree (root : NodeId)
  | text (chars : Array Char)
deriving Repr

namespace Buffer

/-- Move an anchor of a leaf that was cut at `cut` to one of the halves.  An
entry whose anchor is released, or sits elsewhere, is passed over. -/
def reseat (leaf : NodeId) (cut : Nat) (left right : NodeId) :
    Nat × Buffer → AnchorId → Nat × Buffer
  | (moved, buffer), anchor =>
    match buffer.anchor? anchor with
    | some place =>
      if place.leaf = leaf then
        let target : Place :=
          if place.offset < cut then ⟨left, place.offset⟩ else ⟨right, place.offset - cut⟩
        let seated := { buffer with anchors := buffer.anchors.setIfInBounds anchor (some target) }
        (moved + 1, seated.modifyAnchors target.leaf (·.push anchor))
      else (moved, buffer)
    | none => (moved, buffer)

/-- Cut a leaf in two.  The revision grows by one if an anchor moved. -/
def splitLeaf (buffer : Buffer) (leaf : NodeId) (cut : Nat) : (NodeId × NodeId) × Buffer :=
  match buffer.nodes[leaf]? with
  | some (.leaf text _ anchors) =>
    let emptied := buffer.modifyAnchors leaf fun _ => {}
    let (left, withLeft) := emptied.addLeaf (text.extract 0 cut)
    let (right, withRight) := withLeft.addLeaf (text.extract cut text.size)
    let (moved, reseated) := anchors.ids.foldl (reseat leaf cut left right) (0, withRight)
    let revision := if moved = 0 then reseated.revision else reseated.revision + 1
    ((left, right), { reseated with revision })
  | _ => ((leaf, leaf), buffer)

/-- Split a subtree strictly inside, so that the left part has `index` characters. -/
def splitWithin (buffer : Buffer) : Nat → NodeId → Nat → (NodeId × NodeId) × Buffer
  | 0, node, _ => ((node, node), buffer)
  | fuel + 1, node, index =>
    match buffer.nodes[node]? with
    | some (.branch left right leftLength _ _) =>
      if index < leftLength then
        let ((first, rest), cut) := buffer.splitWithin fuel left index
        let (second, joined) := cut.addBranch rest right
        ((first, second), joined)
      else if leftLength < index then
        let ((rest, second), cut) := buffer.splitWithin fuel right (index - leftLength)
        let (first, joined) := cut.addBranch left rest
        ((first, second), joined)
      else ((left, right), buffer)
    | _ => buffer.splitLeaf node index

/-- Every branch on the path to an index is the recorded parent of both its children. -/
def ownsPathWithin (buffer : Buffer) : Nat → NodeId → Nat → Bool
  | 0, _, _ => true
  | fuel + 1, node, index =>
    match buffer.nodes[node]? with
    | some (.branch left right leftLength _ _) =>
      buffer.parent left == some node && buffer.parent right == some node &&
        (if index < leftLength then buffer.ownsPathWithin fuel left index
        else if leftLength < index then buffer.ownsPathWithin fuel right (index - leftLength)
        else true)
    | _ => true

/-- No newer version has taken over a node that a split at `index` would relink. -/
def ownsPath (buffer : Buffer) (root : NodeId) (index : Nat) : Bool :=
  (buffer.parent root).isNone && buffer.ownsPathWithin buffer.nodeCount root index

/-- Split a version that owns its path.  A split at either end keeps the tree
whole and makes one empty leaf for the other side. -/
def splitOwned (buffer : Buffer) (root : NodeId) (index : Nat) : (NodeId × NodeId) × Buffer :=
  let ((left, right), cut) :=
    if index = 0 then
      let (empty, grown) := buffer.addLeaf #[]
      ((empty, root), grown)
    else if index = buffer.length root then
      let (empty, grown) := buffer.addLeaf #[]
      ((root, empty), grown)
    else buffer.splitWithin buffer.nodeCount root index
  ((left, right), (cut.setParent left none).setParent right none)

/-- The first `index` characters, and the others, as two trees of their own.  A copy that was
made first is a leaf without a parent, which owns its path, and its range is checked again. -/
def split (buffer : Buffer) (root : NodeId) (index : Nat) :
    Except RangeError (NodeId × NodeId) × Buffer :=
  let length := buffer.length root
  if length < index then (.error (.outOfBounds index length), buffer)
  else if buffer.ownsPath root index then
    let (halves, cut) := buffer.splitOwned root index
    (.ok halves, cut)
  else
    let (copy, grown) := buffer.addLeaf (buffer.text root).toArray
    let copied := grown.length copy
    if copied < index then (.error (.outOfBounds index copied), grown)
    else
      let (halves, cut) := grown.splitOwned copy index
      (.ok halves, cut)

/-- A piece as a tree of this buffer that can stand next to `root`. -/
def adopt (buffer : Buffer) (root : NodeId) : Piece → NodeId × Buffer
  | .tree other =>
    if other = root then buffer.addLeaf (buffer.text other).toArray else (other, buffer)
  | .text chars => buffer.addLeaf chars

/-- Two trees one after the other.  Where one of them is empty the other is the result. -/
def join (buffer : Buffer) (root other : NodeId) : NodeId × Buffer :=
  if buffer.length other = 0 then (root, buffer)
  else if buffer.length root = 0 then (other, buffer)
  else buffer.addBranch root other

/-- A tree followed by a piece. -/
def concat (buffer : Buffer) (root : NodeId) (piece : Piece) : NodeId × Buffer :=
  let (other, adopted) := buffer.adopt root piece
  adopted.join root other

/-- The version after an edit, and the characters that the edit cut out. -/
structure Replaced where
  replaced : NodeId
  removed : NodeId
deriving Repr

/-- Replace the characters from `start` up to `stop` by a piece. -/
def replace (buffer : Buffer) (root : NodeId) (start stop : Nat) (piece : Piece) :
    Except RangeError Replaced × Buffer :=
  let length := buffer.length root
  if stop < start then (.error (.inverted start stop), buffer)
  else if length < stop then (.error (.outOfBounds stop length), buffer)
  else
    match buffer.split root start with
    | (.error error, cutOnce) => (.error error, cutOnce)
    | (.ok (left, rest), cutOnce) =>
      match cutOnce.split rest (stop - start) with
      | (.error error, cutTwice) => (.error error, cutTwice)
      | (.ok (removed, right), cutTwice) =>
        let (front, joinedOnce) := cutTwice.concat left piece
        let (replaced, joinedTwice) := joinedOnce.concat front (.tree right)
        (.ok ⟨replaced, removed⟩, joinedTwice)

end Buffer

end Reparse
