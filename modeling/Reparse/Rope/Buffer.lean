/-!
# A buffer and the trees that live in it

A text is a binary tree of chunks.  Every chunk and every branch ever made
for a text, in any of its versions, is a numbered node of one buffer, and no
node is ever taken away.  An edit adds a few nodes and leaves the old ones as
they are, so an earlier version keeps reading its own text.

Two links tie the nodes together, and they age differently.  The children of
a branch are fixed when the branch is made.  The parent of a node is the
branch that adopted it last.  A version that was superseded may therefore list
a child whose parent is a branch of a newer version.  Reading a text follows
children, and belongs to one version.  Walking from a leaf to its neighbours,
to its index or to its root follows parents, and always answers for the newest
version that holds the leaf.

A buffer also holds anchors: numbered slots that name a place, a leaf and an
offset in it.  They are the storage behind cursors.  The leaf remembers which
anchors were put on it, so that a split of the leaf can move them along.

A branch is made after its children, so the number of a child is smaller than
that of the branch.  Walks along either link are bounded by the number of
nodes in the buffer.
-/

namespace Reparse

/-- Number of a node in its buffer, counted from zero in the order of creation. -/
abbrev NodeId := Nat

/-- Number of an anchor slot in its buffer. -/
abbrev AnchorId := Nat

/-- A leaf and an offset in its text.  The offset counts characters, and the
length of the text is a legal offset. -/
structure Place where
  leaf : NodeId
  offset : Nat
deriving DecidableEq, Repr, Inhabited

/-- The anchors that were put on a leaf, oldest first.  An entry is a hint: its
slot may meanwhile be released, or sit on another leaf, and may then be listed
here twice.  The list is tidied only when it has used up its capacity. -/
structure AnchorList where
  ids : Array AnchorId := #[]
  capacity : Nat := 4
deriving Repr, Inhabited

/-- A chunk of text, or two subtrees joined.  A branch keeps the length of its
left subtree, by which an index finds its side, and its own length. -/
inductive Node where
  | leaf (text : Array Char) (parent : Option NodeId) (anchors : AnchorList)
  | branch (left right : NodeId) (leftLength length : Nat) (parent : Option NodeId)
deriving Repr, Inhabited

namespace Node

def length : Node → Nat
  | .leaf text _ _ => text.size
  | .branch _ _ _ length _ => length

def parent : Node → Option NodeId
  | .leaf _ parent _ => parent
  | .branch _ _ _ _ parent => parent

def withParent (parent : Option NodeId) : Node → Node
  | .leaf text _ anchors => .leaf text parent anchors
  | .branch left right leftLength length _ => .branch left right leftLength length parent

def text : Node → Array Char
  | .leaf text _ _ => text
  | .branch .. => #[]

end Node

/-- All nodes and anchors of one document.  A released anchor slot is `none`,
and waits in `free`, most recently released first, to be used again.  The
revision counts the leaf splits that moved an anchor. -/
structure Buffer where
  nodes : Array Node := #[]
  anchors : Array (Option Place) := #[]
  free : List AnchorId := []
  revision : Nat := 0
deriving Repr, Inhabited

namespace Buffer

def nodeCount (buffer : Buffer) : Nat := buffer.nodes.size

/-- Number of anchors in use. -/
def liveAnchors (buffer : Buffer) : Nat := buffer.anchors.countP Option.isSome

/-- Length of the subtree at a node. -/
def length (buffer : Buffer) (node : NodeId) : Nat :=
  match buffer.nodes[node]? with
  | some content => content.length
  | none => 0

def parent (buffer : Buffer) (node : NodeId) : Option NodeId :=
  buffer.nodes[node]? >>= Node.parent

/-- The text of a leaf.  A branch has no text of its own. -/
def leafText (buffer : Buffer) (node : NodeId) : Array Char :=
  match buffer.nodes[node]? with
  | some content => content.text
  | none => #[]

/-- The two children of a branch, which a leaf takes to be itself. -/
def children (buffer : Buffer) (node : NodeId) : NodeId × NodeId :=
  match buffer.nodes[node]? with
  | some (.branch left right _ _ _) => (left, right)
  | _ => (node, node)

/-! ## Making nodes -/

def addLeaf (buffer : Buffer) (text : Array Char) : NodeId × Buffer :=
  (buffer.nodes.size, { buffer with nodes := buffer.nodes.push (.leaf text none {}) })

def setParent (buffer : Buffer) (node : NodeId) (parent : Option NodeId) : Buffer :=
  { buffer with nodes := buffer.nodes.modify node (Node.withParent parent) }

/-- Join two subtrees under a new branch, which becomes the parent of both. -/
def addBranch (buffer : Buffer) (left right : NodeId) : NodeId × Buffer :=
  let branch := buffer.nodes.size
  let leftLength := buffer.length left
  let content := .branch left right leftLength (leftLength + buffer.length right) none
  let grown := { buffer with nodes := buffer.nodes.push content }
  (branch, (grown.setParent left (some branch)).setParent right (some branch))

/-! ## Reading one version

These follow children only, and so never depend on what other versions did. -/

/-- The leaf that holds an index of a subtree, and the offset in it.  The index
that equals the length is the end of the last leaf. -/
def locateWithin (buffer : Buffer) : Nat → NodeId → Nat → Place
  | 0, node, index => ⟨node, index⟩
  | fuel + 1, node, index =>
    match buffer.nodes[node]? with
    | some (.branch left right leftLength _ _) =>
      if index < leftLength then buffer.locateWithin fuel left index
      else buffer.locateWithin fuel right (index - leftLength)
    | _ => ⟨node, index⟩

def locate (buffer : Buffer) (root : NodeId) (index : Nat) : Place :=
  buffer.locateWithin buffer.nodeCount root index

/-- The character at an index of a subtree. -/
def charAt (buffer : Buffer) (root : NodeId) (index : Nat) : Option Char :=
  let place := buffer.locate root index
  (buffer.leafText place.leaf)[place.offset]?

/-- The leaves of a subtree from left to right, put in front of `rest`. -/
def leavesWithin (buffer : Buffer) : Nat → NodeId → List NodeId → List NodeId
  | 0, _, rest => rest
  | fuel + 1, node, rest =>
    match buffer.nodes[node]? with
    | some (.branch left right _ _ _) =>
      buffer.leavesWithin fuel left (buffer.leavesWithin fuel right rest)
    | some (.leaf ..) => node :: rest
    | none => rest

def leaves (buffer : Buffer) (root : NodeId) : List NodeId :=
  buffer.leavesWithin buffer.nodeCount root []

/-- The text of a subtree: its leaves joined from left to right. -/
def text (buffer : Buffer) (root : NodeId) : List Char :=
  (buffer.leaves root).flatMap fun leaf => (buffer.leafText leaf).toList

end Buffer

end Reparse
