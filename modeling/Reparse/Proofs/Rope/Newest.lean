import Reparse.Proofs.Rope.Forks
import Reparse.Proofs.Rope.Tracking

/-!
# Newest ropes

Whether a version is the newest one is written in the links of its buffer: its root
has no parent, and every branch that is reached from the root going down is the
recorded parent of both its children.  Since branches fork, such links leave no node
to be met twice, and the tree is a current tree.

The newest ropes are closed under all operations.  A text made from scratch is one.
So are both parts of a newest rope, two newest ropes joined, also a rope joined with
itself, and both results of putting one newest rope into another.
-/

namespace Reparse

namespace Buffer

/-- A node is reached from another one going down. -/
inductive Below (buffer : Buffer) (root : NodeId) : NodeId → Prop where
  | root : Below buffer root root
  | left {node left right : NodeId} {leftLength length : Nat} {parent : Option NodeId}
      (above : Below buffer root node)
      (found : buffer.nodes[node]? = some (.branch left right leftLength length parent)) :
      Below buffer root left
  | right {node left right : NodeId} {leftLength length : Nat} {parent : Option NodeId}
      (above : Below buffer root node)
      (found : buffer.nodes[node]? = some (.branch left right leftLength length parent)) :
      Below buffer root right

/-- The root has no parent, and every branch below it is the parent of both its children. -/
structure Newest (buffer : Buffer) (root : NodeId) : Prop where
  loose : buffer.parent root = none
  owns : ∀ node left right leftLength length parent, buffer.Below root node →
    buffer.nodes[node]? = some (.branch left right leftLength length parent) →
    buffer.parent left = some node ∧ buffer.parent right = some node

variable {buffer : Buffer} {shape : Shape}

/-! ## Nodes below a root -/

/-- A branch of a shape is stored with the roots of both sides. -/
theorem Shows.children_mem (shown : buffer.Shows shape) {node left right : NodeId}
    {leftLength length : Nat} {parent : Option NodeId} (member : node ∈ shape.nodes)
    (found : buffer.nodes[node]? = some (.branch left right leftLength length parent)) :
    left ∈ shape.nodes ∧ right ∈ shape.nodes := by
  induction shape with
  | leaf own text =>
      rw [Shape.nodes, List.mem_singleton] at member
      rcases view_eq_leaf_iff.mp shown with ⟨above, anchors, isLeaf⟩
      rw [member, isLeaf] at found
      cases found
  | branch own first second firstHypothesis secondHypothesis =>
      rcases shown with ⟨isBranch, _, _, _, _, firstShown, secondShown⟩
      rcases view_eq_branch_iff.mp isBranch with ⟨above, isBranch⟩
      simp only [Shape.nodes, List.mem_cons, List.mem_append] at member ⊢
      rcases member with same | inFirst | inSecond
      · rw [same, isBranch] at found
        cases found
        exact ⟨Or.inr (Or.inl first.root_mem_nodes), Or.inr (Or.inr second.root_mem_nodes)⟩
      · rcases firstHypothesis firstShown inFirst with ⟨leftIn, rightIn⟩
        exact ⟨Or.inr (Or.inl leftIn), Or.inr (Or.inl rightIn)⟩
      · rcases secondHypothesis secondShown inSecond with ⟨leftIn, rightIn⟩
        exact ⟨Or.inr (Or.inr leftIn), Or.inr (Or.inr rightIn)⟩

theorem Shows.below_of_mem (shown : buffer.Shows shape) {root : NodeId}
    (above : buffer.Below root shape.root) {node : NodeId} (member : node ∈ shape.nodes) :
    buffer.Below root node := by
  induction shape with
  | leaf own text =>
      rw [Shape.nodes, List.mem_singleton] at member
      rw [member]
      exact above
  | branch own first second firstHypothesis secondHypothesis =>
      rcases shown with ⟨isBranch, _, _, _, _, firstShown, secondShown⟩
      rcases view_eq_branch_iff.mp isBranch with ⟨parent, isBranch⟩
      rw [Shape.nodes, List.mem_cons, List.mem_append] at member
      rcases member with same | inFirst | inSecond
      · rw [same]
        exact above
      · exact firstHypothesis firstShown (.left above isBranch) inFirst
      · exact secondHypothesis secondShown (.right above isBranch) inSecond

/-- The nodes below the root of a shape are its nodes. -/
theorem Shows.below_iff (shown : buffer.Shows shape) {node : NodeId} :
    buffer.Below shape.root node ↔ node ∈ shape.nodes := by
  constructor
  · intro below
    induction below with
    | root => exact shape.root_mem_nodes
    | left above found member => exact (shown.children_mem member found).1
    | right above found member => exact (shown.children_mem member found).2
  · exact shown.below_of_mem .root

/-! ## Newest trees are current -/

/-- In a linked tree every node below the root has its parent in the tree. -/
theorem Linked.parent_mem (linked : buffer.Linked shape) {node : NodeId}
    (member : node ∈ shape.inner) : ∃ branch ∈ shape.nodes, buffer.parent node = some branch := by
  induction shape with
  | leaf own text => cases member
  | branch own left right leftHypothesis rightHypothesis =>
      rcases linked with ⟨ownsLeft, ownsRight, leftLinked, rightLinked⟩
      rw [Shape.inner, List.mem_append] at member
      rcases member with inLeft | inRight
      · rw [Shape.nodes_eq_cons, List.mem_cons] at inLeft
        rcases inLeft with rfl | inner
        · exact ⟨own, Shape.root_mem_nodes _, ownsLeft⟩
        · rcases leftHypothesis leftLinked inner with ⟨branch, inside, owned⟩
          exact ⟨branch, List.mem_cons_of_mem _ (List.mem_append_left _ inside), owned⟩
      · rw [Shape.nodes_eq_cons, List.mem_cons] at inRight
        rcases inRight with rfl | inner
        · exact ⟨own, Shape.root_mem_nodes _, ownsRight⟩
        · rcases rightHypothesis rightLinked inner with ⟨branch, inside, owned⟩
          exact ⟨branch, List.mem_cons_of_mem _ (List.mem_append_right _ inside), owned⟩

/-- A node whose parent is above a linked tree is no node of it, the root apart. -/
theorem Linked.notMem_of_parent (linked : buffer.Linked shape) (shown : buffer.Shows shape)
    {node branch : NodeId} (owned : buffer.parent node = some branch) (above : shape.root < branch)
    (different : node ≠ shape.root) : node ∉ shape.nodes := by
  intro member
  rw [Shape.nodes_eq_cons, List.mem_cons, or_iff_right different] at member
  rcases linked.parent_mem member with ⟨owner, inside, owned'⟩
  rw [owned] at owned'
  cases owned'
  exact absurd above (Nat.not_lt_of_le (shown.le_root inside))

/-- Two linked trees with different roots under one parent share no node: a shared node
would lead up to a shared root. -/
theorem Linked.apart {left right : Shape} {branch node : NodeId} (formed : buffer.WellFormed)
    (leftShown : buffer.Shows left) (rightShown : buffer.Shows right)
    (leftLinked : buffer.Linked left) (rightLinked : buffer.Linked right)
    (ownsLeft : buffer.parent left.root = some branch)
    (ownsRight : buffer.parent right.root = some branch) (different : left.root ≠ right.root)
    (inLeft : node ∈ left.nodes) : node ∉ right.nodes := by
  have leftApart := rightLinked.notMem_of_parent rightShown ownsLeft
    (formed.lt_of_parent ownsRight) different
  have rightApart := leftLinked.notMem_of_parent leftShown ownsRight
    (formed.lt_of_parent ownsLeft) different.symm
  intro inRight
  -- Climbing in both trees at once takes at most as many steps as numbers are left.
  obtain ⟨count, reach⟩ : ∃ count, left.root ≤ node + count := ⟨left.root, Nat.le_add_left _ _⟩
  induction count generalizing node with
  | zero =>
      rw [Nat.le_antisymm (leftShown.le_root inLeft) reach] at inRight
      exact leftApart inRight
  | succ count inductionHypothesis =>
      have notLeft : node ≠ left.root := fun same => leftApart (same ▸ inRight)
      have notRight : node ≠ right.root := fun same => rightApart (same ▸ inLeft)
      rw [Shape.nodes_eq_cons, List.mem_cons, or_iff_right notLeft] at inLeft
      rw [Shape.nodes_eq_cons, List.mem_cons, or_iff_right notRight] at inRight
      rcases leftLinked.parent_mem inLeft with ⟨owner, insideLeft, owned⟩
      rcases rightLinked.parent_mem inRight with ⟨owner', insideRight, owned'⟩
      rw [owned] at owned'
      cases owned'
      have grows := formed.lt_of_parent owned
      exact inductionHypothesis insideLeft insideRight (by lia)

/-- The links of a shape, where every branch of it is the parent of its children. -/
theorem Shows.linked_of_owns (shown : buffer.Shows shape)
    (owns : ∀ node left right leftLength length parent, node ∈ shape.nodes →
      buffer.nodes[node]? = some (.branch left right leftLength length parent) →
      buffer.parent left = some node ∧ buffer.parent right = some node) : buffer.Linked shape := by
  induction shape with
  | leaf own text => trivial
  | branch own left right leftHypothesis rightHypothesis =>
      rcases shown with ⟨isBranch, _, _, _, _, leftShown, rightShown⟩
      rcases view_eq_branch_iff.mp isBranch with ⟨parent, isBranch⟩
      rcases owns own _ _ _ _ _ (Shape.root_mem_nodes _) isBranch with ⟨ownsLeft, ownsRight⟩
      refine ⟨ownsLeft, ownsRight, leftHypothesis leftShown ?_, rightHypothesis rightShown ?_⟩
      · intro node _ _ _ _ _ member
        exact owns node _ _ _ _ _ (List.mem_cons_of_mem _ (List.mem_append_left _ member))
      · intro node _ _ _ _ _ member
        exact owns node _ _ _ _ _ (List.mem_cons_of_mem _ (List.mem_append_right _ member))

theorem Linked.nodup (formed : buffer.WellFormed) (forked : buffer.Forked)
    (shown : buffer.Shows shape) (linked : buffer.Linked shape) : shape.nodes.Nodup := by
  induction shape with
  | leaf own text => exact List.nodup_cons.mpr ⟨List.not_mem_nil, List.nodup_nil⟩
  | branch own left right leftHypothesis rightHypothesis =>
      rcases shown with ⟨isBranch, leftBelow, rightBelow, _, _, leftShown, rightShown⟩
      rcases linked with ⟨ownsLeft, ownsRight, leftLinked, rightLinked⟩
      have different := forked _ _ _ _ _ isBranch
      refine List.nodup_cons.mpr ⟨fun member => ?_, List.nodup_append.mpr
        ⟨leftHypothesis leftShown leftLinked, rightHypothesis rightShown rightLinked, ?_⟩⟩
      · rcases List.mem_append.mp member with inLeft | inRight
        · exact absurd leftBelow (Nat.not_lt_of_le (leftShown.le_root inLeft))
        · exact absurd rightBelow (Nat.not_lt_of_le (rightShown.le_root inRight))
      · rintro node inLeft _ inRight rfl
        exact leftLinked.apart formed leftShown rightShown rightLinked ownsLeft ownsRight different
          inLeft inRight

theorem Newest.current (newest : buffer.Newest shape.root) (formed : buffer.WellFormed)
    (forked : buffer.Forked) (shown : buffer.Shows shape) : buffer.Current shape := by
  have linked : buffer.Linked shape := shown.linked_of_owns fun node left right leftLength length
    parent member => newest.owns node left right leftLength length parent (shown.below_iff.mpr member)
  exact ⟨shown, linked, newest.loose, linked.nodup formed forked shown⟩

/-- In a linked shape every stored branch is the parent of its children. -/
theorem Linked.owns (linked : buffer.Linked shape) (shown : buffer.Shows shape)
    {node left right : NodeId} {leftLength length : Nat} {parent : Option NodeId}
    (member : node ∈ shape.nodes)
    (found : buffer.nodes[node]? = some (.branch left right leftLength length parent)) :
    buffer.parent left = some node ∧ buffer.parent right = some node := by
  induction shape with
  | leaf own text =>
      rw [Shape.nodes, List.mem_singleton] at member
      rcases view_eq_leaf_iff.mp shown with ⟨above, anchors, isLeaf⟩
      rw [member, isLeaf] at found
      cases found
  | branch own first second firstHypothesis secondHypothesis =>
      rcases shown with ⟨isBranch, _, _, _, _, firstShown, secondShown⟩
      rcases view_eq_branch_iff.mp isBranch with ⟨above, isBranch⟩
      rcases linked with ⟨ownsFirst, ownsSecond, firstLinked, secondLinked⟩
      rw [Shape.nodes, List.mem_cons, List.mem_append] at member
      rcases member with rfl | inFirst | inSecond
      · rw [isBranch] at found
        cases found
        exact ⟨ownsFirst, ownsSecond⟩
      · exact firstHypothesis firstLinked firstShown inFirst
      · exact secondHypothesis secondLinked secondShown inSecond

theorem Current.newest (current : buffer.Current shape) : buffer.Newest shape.root :=
  ⟨current.loose, fun _ _ _ _ _ _ below found =>
    current.linked.owns current.shown (current.shown.below_iff.mp below) found⟩

/-- A tree is joined with itself by way of a copy. -/
theorem concat_self (shown : buffer.Shows shape) :
    buffer.concat shape.root (.tree shape.root) =
      buffer.concat shape.root (.text shape.text.toArray) := by
  simp only [concat, adopt, if_true, text_of_shows shown]

end Buffer

namespace Store

variable {store : Store}

/-- The root of the rope has no parent, and every branch below it is the parent of both
its children. -/
def Newest (store : Store) (rope : Rope) : Prop :=
  (store.buffer rope.buffer).Newest rope.root

theorem Newest.current {rope : Rope} {shape : Shape} (newest : store.Newest rope)
    (sound : store.Sound) (forked : store.Forked) (shown : store.Shows rope shape) :
    (store.buffer rope.buffer).Current shape :=
  Buffer.Newest.current (shown.1 ▸ newest) (sound _).formed (forked _) shown.2

/-- A current tree that was put into a buffer is a newest rope. -/
theorem newest_put {id : BufferId} (within : id < store.buffers.size) {content : Buffer}
    {shape : Shape} (current : content.Current shape) : (store.put id content).Newest ⟨id, shape.root⟩ := by
  rw [Newest]
  simp only [store.buffer_put within, if_true]
  exact current.newest

/-! ## Operations on newest ropes -/

theorem newest_rope (sound : store.Sound) {id : BufferId} (within : id < store.buffers.size)
    (text : String) : (store.rope id text).2.Newest (store.rope id text).1 := by
  have done := adds_rope sound within text
  rw [Newest, done.buffer, ← done.root]
  exact done.adds.current.newest

theorem newest_newRope (sound : store.Sound) (text : String) :
    (store.newRope text).2.Newest (store.newRope text).1 := by
  have within : store.newBuffer.1 < store.newBuffer.2.buffers.size := by
    simp only [newBuffer, Array.size_push, Nat.lt_succ_self]
  exact newest_rope (evolves_newBuffer sound).sound within text

section Operations

variable {rope other : Rope} {shape shape' : Shape}

theorem Newest.split (newest : store.Newest rope) (sound : store.Sound) (forked : store.Forked)
    (shown : store.Shows rope shape) {index : Nat} (within : index ≤ shape.text.length) :
    ∃ left right after, store.split rope index = (.ok (left, right), after) ∧
      after.Newest left ∧ after.Newest right := by
  have current := newest.current sound forked shown
  rcases Buffer.split_current (sound rope.buffer) current within with
    ⟨first, rest, move, cut, done, cleaving⟩
  refine ⟨⟨rope.buffer, first.root⟩, ⟨rope.buffer, rest.root⟩, store.put rope.buffer cut, ?_,
    newest_put shown.lt_size cleaving.firstCurrent, newest_put shown.lt_size cleaving.restCurrent⟩
  rw [Store.split, update_eq, ← shown.1, done]
  rfl

theorem Newest.concat (newest : store.Newest rope) (newest' : store.Newest other)
    (sound : store.Sound) (forked : store.Forked) (shown : store.Shows rope shape)
    (shown' : store.Shows other shape') :
    (store.concat rope other).2.Newest (store.concat rope other).1 := by
  have current := newest.current sound forked shown
  -- A tree of the same buffer comes in as it is, and all other text as a new leaf.
  have joins : ∃ piece text, (store.buffer rope.buffer).Offers text piece ∧
      shape.root ∉ Buffer.Piece.roots piece ∧
      (store.buffer rope.buffer).concat rope.root (store.piece rope.buffer other) =
        (store.buffer rope.buffer).concat shape.root piece := by
    by_cases sameBuffer : other.buffer = rope.buffer
    · by_cases sameRoot : other.root = rope.root
      · refine ⟨.text shape.text.toArray, shape.text, rfl, List.not_mem_nil, ?_⟩
        rw [piece, if_pos sameBuffer, sameRoot, ← shown.1, Buffer.concat_self shown.2]
      · have current' := newest'.current sound forked shown'
        rw [sameBuffer] at current'
        refine ⟨.tree shape'.root, shape'.text, current'.offers, fun member => sameRoot ?_, ?_⟩
        · rw [← shown.1, ← shown'.1, List.mem_singleton.mp member]
        · rw [piece, if_pos sameBuffer, ← shown.1, ← shown'.1]
    · refine ⟨.text shape'.text.toArray, shape'.text, rfl, List.not_mem_nil, ?_⟩
      rw [piece, if_neg sameBuffer, ← shown.1, ← shown'.1, Buffer.text_of_shows shown'.2]
  rcases joins with ⟨piece, text, offers, different, same⟩
  rcases Buffer.concat_current (sound rope.buffer) current offers different with
    ⟨whole, after, done, _, wholeCurrent, _⟩
  simp only [Store.concat, update_eq, same, done]
  exact newest_put shown.lt_size wholeCurrent

theorem Newest.replace (newest : store.Newest rope) (newest' : store.Newest other)
    (different : other ≠ rope) (sound : store.Sound) (forked : store.Forked)
    (shown : store.Shows rope shape) (shown' : store.Shows other shape') {start stop : Nat}
    (ordered : start ≤ stop) (within : stop ≤ shape.text.length) :
    ∃ edit after, store.replace rope start stop other = (.ok edit, after) ∧
      after.Newest edit.replaced ∧ after.Newest edit.removed := by
  have current := newest.current sound forked shown
  have fresh : other.buffer = rope.buffer →
      (store.buffer rope.buffer).Current shape' ∧ shape'.root ≠ shape.root := by
    intro sameBuffer
    refine ⟨sameBuffer ▸ newest'.current sound forked shown', fun sameRoot => different ?_⟩
    rw [shown.1, shown'.1] at sameRoot
    cases rope
    cases other
    cases sameBuffer
    cases sameRoot
    rfl
  rcases replace_current sound shown.1 current shown' fresh ordered within with
    ⟨replaced, removed, after, move, done, replacement⟩
  exact ⟨_, _, done, newest_put shown.lt_size replacement.replacedCurrent,
    newest_put shown.lt_size replacement.removedCurrent⟩

end Operations

end Store

end Reparse
