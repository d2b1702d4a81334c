import Reparse.Proofs.Rope.Shape

/-!
# What each operation on a buffer changes

A node is looked at in three ways: what a version reads of it, which branch is
its parent, and which anchors its list names.  For each operation that makes
or relinks nodes, the lemmas here say what becomes of the three.  Nodes are
only ever added, so every operation extends the buffer.

Well-formed buffers have a shape below every node, and a parent always lists
its child.  The second part is what makes a walk upwards arrive in a tree that
really holds the node it started from.
-/

namespace Reparse

namespace Node

/-- The anchors that the list of a leaf names. -/
def listed : Node → Array AnchorId
  | .leaf _ _ anchors => anchors.ids
  | .branch .. => #[]

@[simp] theorem listed_withParent (parent : Option NodeId) (node : Node) :
    (node.withParent parent).listed = node.listed := by
  cases node <;> rfl

@[simp] theorem parent_withParent (parent : Option NodeId) (node : Node) :
    (node.withParent parent).parent = parent := by
  cases node <;> rfl

end Node

namespace Buffer

variable (buffer : Buffer)

/-- The anchors that the list of a node names. -/
def listed (node : NodeId) : Array AnchorId := (buffer.nodes[node]?.map Node.listed).getD #[]

theorem parent_eq_none_of_le {node : NodeId} (beyond : buffer.nodeCount ≤ node) :
    buffer.parent node = none := by
  simp only [parent, Array.getElem?_eq_none beyond, Option.bind_eq_bind,
    Option.bind_none]

/-! ## One more node, or one node changed -/

/-- The buffer with one more node. -/
def push (content : Node) : Buffer := { buffer with nodes := buffer.nodes.push content }

theorem getElem?_push (content : Node) (node : NodeId) :
    (buffer.push content).nodes[node]? =
      if node = buffer.nodeCount then some content else buffer.nodes[node]? :=
  Array.getElem?_push

theorem view_push (content : Node) (node : NodeId) :
    (buffer.push content).view node =
      if node = buffer.nodeCount then some content.bare else buffer.view node := by
  simp only [view, getElem?_push, apply_ite (Option.map Node.bare), Option.map_some]

theorem extends_push (content : Node) : buffer.Extends (buffer.push content) := by
  intro node known found
  rw [view_push, if_neg (Nat.ne_of_lt (lt_nodeCount_of_view found))]
  exact found

theorem parent_push {content : Node} (orphan : content.parent = none) (node : NodeId) :
    (buffer.push content).parent node = buffer.parent node := by
  by_cases new : node = buffer.nodeCount
  · rw [buffer.parent_eq_none_of_le (Nat.le_of_eq new.symm), parent, getElem?_push, if_pos new]
    exact orphan
  · rw [parent, getElem?_push, if_neg new, parent]

theorem listed_push {content : Node} (unlisted : content.listed = #[]) (node : NodeId) :
    (buffer.push content).listed node = buffer.listed node := by
  by_cases new : node = buffer.nodeCount
  · rw [listed, getElem?_push, if_pos new, listed,
      Array.getElem?_eq_none (Nat.le_of_eq new.symm)]
    exact unlisted
  · rw [listed, getElem?_push, if_neg new, listed]

/-- The buffer with one node changed. -/
def change (node : NodeId) (revise : Node → Node) : Buffer :=
  { buffer with nodes := buffer.nodes.modify node revise }

theorem getElem?_change (node other : NodeId) (revise : Node → Node) :
    (buffer.change node revise).nodes[other]? =
      if node = other then buffer.nodes[other]?.map revise else buffer.nodes[other]? :=
  Array.getElem?_modify

theorem view_change (node other : NodeId) {revise : Node → Node}
    (kept : ∀ content, (revise content).bare = content.bare) :
    (buffer.change node revise).view other = buffer.view other := by
  by_cases same : node = other
  · simp only [view, getElem?_change, if_pos same, Option.map_map, Function.comp_def, kept]
  · rw [view, getElem?_change, if_neg same, view]

theorem parent_change (node other : NodeId) {revise : Node → Node}
    (kept : ∀ content, (revise content).parent = content.parent) :
    (buffer.change node revise).parent other = buffer.parent other := by
  by_cases same : node = other
  · rw [parent, getElem?_change, if_pos same, parent]
    cases buffer.nodes[other]? with
    | none => rfl
    | some content => exact kept content
  · rw [parent, getElem?_change, if_neg same, parent]

theorem listed_change (node other : NodeId) {revise : Node → Node}
    (kept : ∀ content, (revise content).listed = content.listed) :
    (buffer.change node revise).listed other = buffer.listed other := by
  by_cases same : node = other
  · simp only [listed, getElem?_change, if_pos same, Option.map_map, Function.comp_def, kept]
  · rw [listed, getElem?_change, if_neg same, listed]

/-! ## A new leaf -/

@[simp] theorem fst_addLeaf (text : Array Char) : (buffer.addLeaf text).1 = buffer.nodeCount := rfl

@[simp] theorem nodeCount_addLeaf (text : Array Char) :
    (buffer.addLeaf text).2.nodeCount = buffer.nodeCount + 1 := Array.size_push _

@[simp] theorem anchor?_addLeaf (text : Array Char) (anchor : AnchorId) :
    (buffer.addLeaf text).2.anchor? anchor = buffer.anchor? anchor := rfl

@[simp] theorem anchors_addLeaf (text : Array Char) :
    (buffer.addLeaf text).2.anchors = buffer.anchors := rfl

@[simp] theorem free_addLeaf (text : Array Char) :
    (buffer.addLeaf text).2.free = buffer.free := rfl

theorem view_addLeaf (text : Array Char) (node : NodeId) :
    (buffer.addLeaf text).2.view node =
      if node = buffer.nodeCount then some (.leaf text none {}) else buffer.view node :=
  buffer.view_push _ node

@[simp] theorem view_addLeaf_new (text : Array Char) :
    (buffer.addLeaf text).2.view buffer.nodeCount = some (.leaf text none {}) := by
  rw [view_addLeaf, if_pos rfl]

theorem extends_addLeaf (text : Array Char) : buffer.Extends (buffer.addLeaf text).2 :=
  buffer.extends_push _

@[simp] theorem parent_addLeaf (text : Array Char) (node : NodeId) :
    (buffer.addLeaf text).2.parent node = buffer.parent node :=
  buffer.parent_push rfl node

@[simp] theorem listed_addLeaf (text : Array Char) (node : NodeId) :
    (buffer.addLeaf text).2.listed node = buffer.listed node :=
  buffer.listed_push rfl node

/-! ## A new parent -/

@[simp] theorem nodeCount_setParent (node : NodeId) (parent : Option NodeId) :
    (buffer.setParent node parent).nodeCount = buffer.nodeCount := Array.size_modify

@[simp] theorem anchor?_setParent (node : NodeId) (parent : Option NodeId) (anchor : AnchorId) :
    (buffer.setParent node parent).anchor? anchor = buffer.anchor? anchor := rfl

@[simp] theorem anchors_setParent (node : NodeId) (parent : Option NodeId) :
    (buffer.setParent node parent).anchors = buffer.anchors := rfl

@[simp] theorem free_setParent (node : NodeId) (parent : Option NodeId) :
    (buffer.setParent node parent).free = buffer.free := rfl

@[simp] theorem view_setParent (node other : NodeId) (parent : Option NodeId) :
    (buffer.setParent node parent).view other = buffer.view other :=
  buffer.view_change node other (Node.bare_withParent parent)

@[simp] theorem listed_setParent (node other : NodeId) (parent : Option NodeId) :
    (buffer.setParent node parent).listed other = buffer.listed other :=
  buffer.listed_change node other (Node.listed_withParent parent)

theorem parent_setParent_self {node : NodeId} (within : node < buffer.nodeCount)
    (parent : Option NodeId) : (buffer.setParent node parent).parent node = parent := by
  rw [Buffer.parent, show buffer.setParent node parent = buffer.change node _ from rfl,
    getElem?_change, if_pos rfl, Array.getElem?_eq_getElem within]
  exact Node.parent_withParent parent _

theorem parent_setParent_ne {node other : NodeId} (different : other ≠ node)
    (parent : Option NodeId) : (buffer.setParent node parent).parent other = buffer.parent other := by
  rw [Buffer.parent, show buffer.setParent node parent = buffer.change node _ from rfl,
    getElem?_change, if_neg (Ne.symm different), Buffer.parent]

theorem extends_setParent (node : NodeId) (parent : Option NodeId) :
    buffer.Extends (buffer.setParent node parent) := by
  intro other content found
  rw [view_setParent]
  exact found

/-! ## A new branch -/

@[simp] theorem fst_addBranch (left right : NodeId) :
    (buffer.addBranch left right).1 = buffer.nodeCount := rfl

@[simp] theorem nodeCount_addBranch (left right : NodeId) :
    (buffer.addBranch left right).2.nodeCount = buffer.nodeCount + 1 := by
  simp only [addBranch, nodeCount_setParent]
  exact Array.size_push _

@[simp] theorem anchor?_addBranch (left right : NodeId) (anchor : AnchorId) :
    (buffer.addBranch left right).2.anchor? anchor = buffer.anchor? anchor := rfl

@[simp] theorem anchors_addBranch (left right : NodeId) :
    (buffer.addBranch left right).2.anchors = buffer.anchors := rfl

@[simp] theorem free_addBranch (left right : NodeId) :
    (buffer.addBranch left right).2.free = buffer.free := rfl

theorem view_addBranch (left right node : NodeId) :
    (buffer.addBranch left right).2.view node =
      if node = buffer.nodeCount then
        some (.branch left right (buffer.length left) (buffer.length left + buffer.length right) none)
      else buffer.view node := by
  simp only [addBranch, view_setParent]
  exact buffer.view_push _ node

@[simp] theorem view_addBranch_new (left right : NodeId) :
    (buffer.addBranch left right).2.view buffer.nodeCount =
      some (.branch left right (buffer.length left) (buffer.length left + buffer.length right) none) := by
  rw [view_addBranch, if_pos rfl]

theorem extends_addBranch (left right : NodeId) :
    buffer.Extends (buffer.addBranch left right).2 := by
  intro node content found
  rw [view_addBranch, if_neg (Nat.ne_of_lt (lt_nodeCount_of_view found))]
  exact found

@[simp] theorem listed_addBranch (left right node : NodeId) :
    (buffer.addBranch left right).2.listed node = buffer.listed node := by
  simp only [addBranch, listed_setParent]
  exact buffer.listed_push rfl node

/-- The new branch adopts its two children, and no other node. -/
theorem parent_addBranch {left right : NodeId} (leftBelow : left < buffer.nodeCount)
    (rightBelow : right < buffer.nodeCount) (node : NodeId) :
    (buffer.addBranch left right).2.parent node =
      if node = left ∨ node = right then some buffer.nodeCount else buffer.parent node := by
  have grown : ∀ content, (buffer.push content).nodeCount = buffer.nodeCount + 1 :=
    fun content => Array.size_push content
  simp only [addBranch]
  by_cases isRight : node = right
  · rw [if_pos (Or.inr isRight), isRight]
    refine parent_setParent_self _ ?_ _
    rw [nodeCount_setParent]
    exact Nat.lt_of_lt_of_eq (Nat.lt_succ_of_lt rightBelow) (grown _).symm
  · rw [parent_setParent_ne _ isRight]
    by_cases isLeft : node = left
    · rw [if_pos (Or.inl isLeft), isLeft]
      exact parent_setParent_self _
        (Nat.lt_of_lt_of_eq (Nat.lt_succ_of_lt leftBelow) (grown _).symm) _
    · rw [parent_setParent_ne _ isLeft, if_neg (fun either => either.elim isLeft isRight)]
      exact buffer.parent_push rfl node

/-- A branch over two shapes with text has the shape that joins them. -/
theorem shows_addBranch {left right : Shape} (leftShown : buffer.Shows left)
    (rightShown : buffer.Shows right) (leftText : left.text ≠ []) (rightText : right.text ≠ []) :
    (buffer.addBranch left.root right.root).2.Shows (.branch buffer.nodeCount left right) := by
  have grown := buffer.extends_addBranch left.root right.root
  refine ⟨?_, leftShown.root_lt, rightShown.root_lt, leftText, rightText, leftShown.mono grown,
    rightShown.mono grown⟩
  rw [view_addBranch_new, leftShown.length, rightShown.length]

/-! ## Lists of anchors -/

@[simp] theorem nodeCount_modifyAnchors (node : NodeId) (change : AnchorList → AnchorList) :
    (buffer.modifyAnchors node change).nodeCount = buffer.nodeCount := Array.size_modify

@[simp] theorem anchor?_modifyAnchors (node : NodeId) (change : AnchorList → AnchorList)
    (anchor : AnchorId) :
    (buffer.modifyAnchors node change).anchor? anchor = buffer.anchor? anchor := rfl

@[simp] theorem anchors_modifyAnchors (node : NodeId) (change : AnchorList → AnchorList) :
    (buffer.modifyAnchors node change).anchors = buffer.anchors := rfl

@[simp] theorem free_modifyAnchors (node : NodeId) (change : AnchorList → AnchorList) :
    (buffer.modifyAnchors node change).free = buffer.free := rfl

@[simp] theorem view_modifyAnchors (node other : NodeId) (change : AnchorList → AnchorList) :
    (buffer.modifyAnchors node change).view other = buffer.view other := by
  refine buffer.view_change node other fun content => ?_
  cases content <;> rfl

@[simp] theorem parent_modifyAnchors (node other : NodeId) (change : AnchorList → AnchorList) :
    (buffer.modifyAnchors node change).parent other = buffer.parent other := by
  refine buffer.parent_change node other fun content => ?_
  cases content <;> rfl

theorem listed_modifyAnchors_ne {node other : NodeId} (different : other ≠ node)
    (change : AnchorList → AnchorList) :
    (buffer.modifyAnchors node change).listed other = buffer.listed other := by
  rw [listed, show buffer.modifyAnchors node change = buffer.change node _ from rfl,
    getElem?_change, if_neg (Ne.symm different), listed]

/-- A leaf has a list, and the changed leaf has the changed list. -/
theorem listed_modifyAnchors_self {node : NodeId} {text : Array Char}
    (found : buffer.view node = some (.leaf text none {})) :
    ∃ list : AnchorList, buffer.listed node = list.ids ∧ ∀ change : AnchorList → AnchorList,
      (buffer.modifyAnchors node change).listed node = (change list).ids := by
  rcases view_eq_leaf_iff.mp found with ⟨parent, anchors, found⟩
  refine ⟨anchors, by rw [listed, found]; rfl, fun change => ?_⟩
  rw [listed, show buffer.modifyAnchors node change = buffer.change node _ from rfl,
    getElem?_change, if_pos rfl, found]
  rfl

/-! ## Well-formed buffers -/

/-- Every node has a shape, and the parent of a node is a branch that lists it. -/
structure WellFormed (buffer : Buffer) : Prop where
  shown : ∀ node, node < buffer.nodeCount → ∃ shape : Shape, shape.root = node ∧ buffer.Shows shape
  parented : ∀ node branch, buffer.parent node = some branch →
    ∃ left right leftLength length,
      buffer.view branch = some (.branch left right leftLength length none) ∧
        (left = node ∨ right = node)

variable {buffer}

theorem WellFormed.lt_of_parent (formed : buffer.WellFormed) {node branch : NodeId}
    (owned : buffer.parent node = some branch) : node < branch := by
  rcases formed.parented node branch owned with ⟨left, right, leftLength, length, found, listed⟩
  rcases formed.shown branch (lt_nodeCount_of_view found) with ⟨shape, rfl, shown⟩
  cases shape with
  | leaf own text => cases shown.symm.trans found
  | branch own first second =>
      have equal := shown.1.symm.trans found
      injection equal with equal
      injection equal with leftSame rightSame
      rcases listed with rfl | rfl
      · exact leftSame ▸ shown.2.1
      · exact rightSame ▸ shown.2.2.1

/-- Well-formedness speaks only of what versions read and of parents. -/
theorem WellFormed.congr {other : Buffer} (formed : buffer.WellFormed)
    (views : ∀ node, other.view node = buffer.view node)
    (parents : ∀ node, other.parent node = buffer.parent node) : other.WellFormed := by
  have grown : buffer.Extends other := fun node content found => (views node).trans found
  constructor
  · intro node within
    have present := view_isSome_iff.mpr within
    rw [views] at present
    rcases formed.shown node (view_isSome_iff.mp present) with ⟨shape, same, shown⟩
    exact ⟨shape, same, shown.mono grown⟩
  · intro node branch owned
    rw [parents] at owned
    rcases formed.parented node branch owned with ⟨left, right, leftLength, length, found, listed⟩
    exact ⟨left, right, leftLength, length, grown _ _ found, listed⟩

theorem WellFormed.addLeaf (formed : buffer.WellFormed) (text : Array Char) :
    (buffer.addLeaf text).2.WellFormed := by
  constructor
  · intro node within
    rw [nodeCount_addLeaf] at within
    rcases Nat.lt_succ_iff_lt_or_eq.mp within with old | new
    · rcases formed.shown node old with ⟨shape, same, shown⟩
      exact ⟨shape, same, shown.mono (buffer.extends_addLeaf text)⟩
    · refine ⟨.leaf node text.toList, rfl, ?_⟩
      rw [Shows, new, view_addLeaf_new]
  · intro node branch owned
    rw [parent_addLeaf] at owned
    rcases formed.parented node branch owned with ⟨left, right, leftLength, length, found, listed⟩
    exact ⟨left, right, leftLength, length, buffer.extends_addLeaf text _ _ found, listed⟩

theorem WellFormed.release (formed : buffer.WellFormed) (node : NodeId) :
    (buffer.setParent node none).WellFormed := by
  constructor
  · intro other within
    rw [nodeCount_setParent] at within
    rcases formed.shown other within with ⟨shape, same, shown⟩
    exact ⟨shape, same, shown.mono (buffer.extends_setParent node none)⟩
  · intro other branch owned
    have kept : buffer.parent other = some branch := by
      by_cases same : other = node
      · subst same
        rcases Nat.lt_or_ge other buffer.nodeCount with within | beyond
        · rw [parent_setParent_self buffer within] at owned
          cases owned
        · rw [parent_eq_none_of_le _ (by rwa [nodeCount_setParent])] at owned
          cases owned
      · rwa [parent_setParent_ne buffer same] at owned
    rcases formed.parented other branch kept with ⟨left, right, leftLength, length, found, listed⟩
    exact ⟨left, right, leftLength, length, buffer.extends_setParent node none _ _ found, listed⟩

theorem WellFormed.addBranch (formed : buffer.WellFormed) {left right : Shape}
    (leftShown : buffer.Shows left) (rightShown : buffer.Shows right) (leftText : left.text ≠ [])
    (rightText : right.text ≠ []) : (buffer.addBranch left.root right.root).2.WellFormed := by
  have grown := buffer.extends_addBranch left.root right.root
  constructor
  · intro node within
    rw [nodeCount_addBranch] at within
    rcases Nat.lt_succ_iff_lt_or_eq.mp within with old | new
    · rcases formed.shown node old with ⟨shape, same, shown⟩
      exact ⟨shape, same, shown.mono grown⟩
    · exact ⟨.branch buffer.nodeCount left right, new.symm,
        buffer.shows_addBranch leftShown rightShown leftText rightText⟩
  · intro node branch owned
    rw [parent_addBranch buffer leftShown.root_lt rightShown.root_lt] at owned
    split at owned
    · next child =>
        cases owned
        exact ⟨_, _, _, _, view_addBranch_new buffer left.root right.root,
          child.imp Eq.symm Eq.symm⟩
    · rcases formed.parented node branch owned with ⟨first, second, leftLength, length, found, listed⟩
      exact ⟨first, second, leftLength, length, grown _ _ found, listed⟩

theorem WellFormed.empty : WellFormed {} := by
  constructor
  · intro node within
    exact absurd within (Nat.not_lt_zero _)
  · intro node branch owned
    cases owned

end Buffer

end Reparse
