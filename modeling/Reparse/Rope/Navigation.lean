import Reparse.Rope.Buffer

/-!
# Walking from place to place

Navigation starts at a place and follows parents up and children down, so it
moves in the newest version that holds the leaf.

The end of one leaf and the start of the next are the same position in the
text.  A settled place stands at a character: it is at the end of a leaf only
where no leaf follows.  Reading and stepping back both answer settled places,
so two of them that mean the same position of one version are equal.

Every leaf under a branch holds a character.  A walk of `n` characters
therefore visits at most `n + 1` leaves, which is the fuel it is given.
-/

namespace Reparse

namespace Buffer

/-- The first leaf of a subtree. -/
def firstLeafWithin (buffer : Buffer) : Nat → NodeId → NodeId
  | 0, node => node
  | fuel + 1, node =>
    match buffer.nodes[node]? with
    | some (.branch left _ _ _ _) => buffer.firstLeafWithin fuel left
    | _ => node

/-- The last leaf of a subtree. -/
def lastLeafWithin (buffer : Buffer) : Nat → NodeId → NodeId
  | 0, node => node
  | fuel + 1, node =>
    match buffer.nodes[node]? with
    | some (.branch _ right _ _ _) => buffer.lastLeafWithin fuel right
    | _ => node

/-- Climb while the node is a right child, then take the first leaf to the right. -/
def nextLeafWithin (buffer : Buffer) : Nat → NodeId → Option NodeId
  | 0, _ => none
  | fuel + 1, node =>
    match buffer.parent node with
    | none => none
    | some parent =>
      let (left, right) := buffer.children parent
      if right = node ∧ left ≠ node then buffer.nextLeafWithin fuel parent
      else some (buffer.firstLeafWithin buffer.nodeCount right)

/-- Climb while the node is a left child, then take the last leaf to the left. -/
def prevLeafWithin (buffer : Buffer) : Nat → NodeId → Option NodeId
  | 0, _ => none
  | fuel + 1, node =>
    match buffer.parent node with
    | none => none
    | some parent =>
      let (left, right) := buffer.children parent
      if left = node ∧ right ≠ node then buffer.prevLeafWithin fuel parent
      else some (buffer.lastLeafWithin buffer.nodeCount left)

/-- The leaf after a leaf in the text, if any. -/
def nextLeaf (buffer : Buffer) (leaf : NodeId) : Option NodeId :=
  buffer.nextLeafWithin buffer.nodeCount leaf

/-- The leaf before a leaf in the text, if any. -/
def prevLeaf (buffer : Buffer) (leaf : NodeId) : Option NodeId :=
  buffer.prevLeafWithin buffer.nodeCount leaf

/-- Add up what lies to the left of a node on the way to its root. -/
def indexWithin (buffer : Buffer) : Nat → NodeId → Nat → Nat
  | 0, _, index => index
  | fuel + 1, node, index =>
    match buffer.parent node with
    | none => index
    | some parent =>
      match buffer.nodes[parent]? with
      | some (.branch _ right leftLength _ _) =>
        buffer.indexWithin fuel parent (if right = node then index + leftLength else index)
      | _ => buffer.indexWithin fuel parent index

/-- The index of a place in the newest version that holds its leaf. -/
def indexOf (buffer : Buffer) (place : Place) : Nat :=
  buffer.indexWithin buffer.nodeCount place.leaf place.offset

def rootWithin (buffer : Buffer) : Nat → NodeId → NodeId
  | 0, node => node
  | fuel + 1, node =>
    match buffer.parent node with
    | none => node
    | some parent => buffer.rootWithin fuel parent

/-- The root of the newest version that holds a node. -/
def rootOf (buffer : Buffer) (node : NodeId) : NodeId :=
  buffer.rootWithin buffer.nodeCount node

def settleWithin (buffer : Buffer) : Nat → Place → Place
  | 0, place => place
  | fuel + 1, place =>
    if place.offset < buffer.length place.leaf then place
    else
      match buffer.nextLeaf place.leaf with
      | some next => buffer.settleWithin fuel ⟨next, 0⟩
      | none => ⟨place.leaf, buffer.length place.leaf⟩

/-- Move a place at the end of a leaf to the start of the next leaf. -/
def settle (buffer : Buffer) (place : Place) : Place :=
  buffer.settleWithin (buffer.nodeCount + 1) place

/-- The character at a settled place.  There is none at the end of the text. -/
def peek (buffer : Buffer) (place : Place) : Option Char :=
  (buffer.leafText place.leaf)[place.offset]?

def forwardWithin (buffer : Buffer) : Nat → Place → Nat → List Char × Place
  | 0, place, _ => ([], place)
  | fuel + 1, place, count =>
    let text := buffer.leafText place.leaf
    let taken := min count (text.size - place.offset)
    let chars := (text.extract place.offset (place.offset + taken)).toList
    if count = taken then (chars, buffer.settle ⟨place.leaf, place.offset + taken⟩)
    else
      match buffer.nextLeaf place.leaf with
      | some next =>
        let (more, stop) := buffer.forwardWithin fuel ⟨next, 0⟩ (count - taken)
        (chars ++ more, stop)
      | none => (chars, ⟨place.leaf, text.size⟩)

/-- The next `count` characters and the place after them.  There are fewer if
the text ends before. -/
def forward (buffer : Buffer) (place : Place) (count : Nat) : List Char × Place :=
  buffer.forwardWithin (count + 2) place count

def backwardWithin (buffer : Buffer) : Nat → Place → Nat → Place
  | 0, place, _ => place
  | fuel + 1, place, count =>
    if count ≤ place.offset then ⟨place.leaf, place.offset - count⟩
    else
      match buffer.prevLeaf place.leaf with
      | some prev => buffer.backwardWithin fuel ⟨prev, buffer.length prev⟩ (count - place.offset)
      | none => ⟨place.leaf, 0⟩

/-- The place `count` characters back, or the start of the text. -/
def backward (buffer : Buffer) (place : Place) (count : Nat) : Place :=
  buffer.settle (buffer.backwardWithin (count + 2) place count)

end Buffer

end Reparse
