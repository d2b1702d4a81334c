import Reparse.Rope.Buffer
import Reparse.Sorting

/-!
# Anchors

An anchor is made on a leaf, may be moved to another place, and is released in
the end.  Its slot is then used again by the next anchor that is made.

The table of slots alone says where an anchor sits.  The list that a leaf
keeps must never miss an anchor that sits there, because a split moves only
the anchors of that list.  It may hold entries that are out of date, and those
are dropped when the list is tidied.  Tidying is put off until the list is full,
so putting an anchor on a leaf is cheap.
-/

namespace Reparse

namespace AnchorList

/-- Lists shorter than this are never tidied. -/
def tidyingLength : Nat := 8

/-- Append an entry, doubling the capacity of a full list. -/
def push (list : AnchorList) (anchor : AnchorId) : AnchorList :=
  { ids := list.ids.push anchor
    capacity := if list.ids.size < list.capacity then list.capacity else 2 * list.capacity }

/-- Keep one entry for each anchor that still sits on the leaf. -/
def tidy (list : AnchorList) (sitsHere : AnchorId → Bool) : AnchorList :=
  let ids := (sortBy (fun first second => decide (first ≤ second)) list.ids.toList).eraseReps
  { list with ids := (ids.filter sitsHere).toArray }

/-- Append an entry to a list, tidying a list that is long and full before. -/
def attach (list : AnchorList) (sitsHere : AnchorId → Bool) (anchor : AnchorId) : AnchorList :=
  if tidyingLength ≤ list.ids.size ∧ list.ids.size = list.capacity then
    (list.tidy sitsHere).push anchor
  else
    list.push anchor

end AnchorList

namespace Buffer

/-- Where an anchor sits, if it was not released. -/
def anchor? (buffer : Buffer) (anchor : AnchorId) : Option Place :=
  buffer.anchors[anchor]?.join

/-- Change the anchor list of a leaf. -/
def modifyAnchors (buffer : Buffer) (leaf : NodeId) (change : AnchorList → AnchorList) : Buffer :=
  { buffer with nodes := buffer.nodes.modify leaf fun
      | .leaf text parent anchors => .leaf text parent (change anchors)
      | branch => branch }

/-- Enter an anchor in the list of a leaf. -/
def attach (buffer : Buffer) (leaf : NodeId) (anchor : AnchorId) : Buffer :=
  let anchors := buffer.anchors
  let sitsHere other := (anchors[other]?.join).any fun place => place.leaf == leaf
  buffer.modifyAnchors leaf (AnchorList.attach · sitsHere anchor)

/-- Make an anchor, in the slot released last if there is one. -/
def addAnchor (buffer : Buffer) (place : Place) : AnchorId × Buffer :=
  match buffer.free with
  | anchor :: free =>
    let seated := { buffer with anchors := buffer.anchors.setIfInBounds anchor (some place), free }
    (anchor, seated.attach place.leaf anchor)
  | [] =>
    let anchor := buffer.anchors.size
    (anchor, { buffer with anchors := buffer.anchors.push (some place) }.attach place.leaf anchor)

/-- Move an anchor, entering it in the list of the leaf if the leaf changes. -/
def moveAnchor (buffer : Buffer) (anchor : AnchorId) (place : Place) : Buffer :=
  let previous := buffer.anchor? anchor
  let moved := { buffer with anchors := buffer.anchors.setIfInBounds anchor (some place) }
  if previous.map Place.leaf = some place.leaf then moved else moved.attach place.leaf anchor

/-- Release an anchor.  A second release of the same anchor does nothing. -/
def releaseAnchor (buffer : Buffer) (anchor : AnchorId) : Buffer :=
  match buffer.anchor? anchor with
  | some _ =>
    { buffer with
      anchors := buffer.anchors.setIfInBounds anchor none
      free := anchor :: buffer.free }
  | none => buffer

end Buffer

end Reparse
