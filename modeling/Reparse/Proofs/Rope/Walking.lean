import Reparse.Proofs.Rope.Editing
import Reparse.Rope.Navigation

/-!
# Walks end at places

Whatever version a place belongs to, a walk from it ends at a leaf of the same
buffer and at an offset that the leaf has.  The walk may have moved to another
version on its way, since it climbs by parents.  So a cursor can be put on the
result of any walk.
-/

namespace Reparse

namespace Buffer

variable {buffer : Buffer}

/-- The first leaf below a node is the first chunk of its shape. -/
theorem firstLeafWithin_of_shows {shape : Shape} (shown : buffer.Shows shape) (fuel : Nat)
    (enough : shape.height < fuel) :
    ∃ text rest, shape.chunks = (buffer.firstLeafWithin fuel shape.root, text) :: rest := by
  induction shape generalizing fuel with
  | leaf node text =>
      cases fuel with
      | zero => exact absurd enough (Nat.not_lt_zero _)
      | succ fuel =>
          rcases view_eq_leaf_iff.mp shown with ⟨parent, anchors, found⟩
          simp only [firstLeafWithin, Shape.root_leaf, found]
          exact ⟨text, [], rfl⟩
  | branch node left right leftHypothesis rightHypothesis =>
      cases fuel with
      | zero => exact absurd enough (Nat.not_lt_zero _)
      | succ fuel =>
          rcases shown with ⟨found, _, _, _, _, leftShown, _⟩
          rcases view_eq_branch_iff.mp found with ⟨parent, found⟩
          rw [Shape.height] at enough
          rcases leftHypothesis leftShown fuel (by omega) with ⟨text, rest, first⟩
          simp only [firstLeafWithin, Shape.root_branch, found, Shape.chunks, first,
            List.cons_append]
          exact ⟨text, rest ++ right.chunks, rfl⟩

/-- The last leaf below a node is the last chunk of its shape. -/
theorem lastLeafWithin_of_shows {shape : Shape} (shown : buffer.Shows shape) (fuel : Nat)
    (enough : shape.height < fuel) :
    ∃ text before, shape.chunks = before ++ [(buffer.lastLeafWithin fuel shape.root, text)] := by
  induction shape generalizing fuel with
  | leaf node text =>
      cases fuel with
      | zero => exact absurd enough (Nat.not_lt_zero _)
      | succ fuel =>
          rcases view_eq_leaf_iff.mp shown with ⟨parent, anchors, found⟩
          simp only [lastLeafWithin, Shape.root_leaf, found]
          exact ⟨text, [], rfl⟩
  | branch node left right leftHypothesis rightHypothesis =>
      cases fuel with
      | zero => exact absurd enough (Nat.not_lt_zero _)
      | succ fuel =>
          rcases shown with ⟨found, _, _, _, _, _, rightShown⟩
          rcases view_eq_branch_iff.mp found with ⟨parent, found⟩
          rw [Shape.height] at enough
          rcases rightHypothesis rightShown fuel (by omega) with ⟨text, before, last⟩
          simp only [lastLeafWithin, Shape.root_branch, found, Shape.chunks, last]
          exact ⟨text, left.chunks ++ before, by rw [List.append_assoc]⟩

/-- The shape of a chunk of a shape: a leaf of the buffer. -/
theorem Shows.hasPlace_chunk {shape : Shape} (shown : buffer.Shows shape)
    {chunk : NodeId × List Char} (member : chunk ∈ shape.chunks) {offset : Nat}
    (within : offset ≤ chunk.2.length) : buffer.HasPlace ⟨chunk.1, offset⟩ :=
  ⟨chunk.2.toArray, shown.view_chunk member, within⟩

/-- A place that the leaf has, told by its length in the buffer. -/
theorem HasPlace.move {place : Place} (has : buffer.HasPlace place) {offset : Nat}
    (within : offset ≤ buffer.length place.leaf) : buffer.HasPlace ⟨place.leaf, offset⟩ := by
  rcases has with ⟨text, found, _⟩
  rw [length_eq_of_view found] at within
  exact ⟨text, found, within⟩

theorem HasPlace.offset_le {place : Place} (has : buffer.HasPlace place) :
    place.offset ≤ buffer.length place.leaf := by
  rcases has with ⟨text, found, within⟩
  rw [length_eq_of_view found]
  exact within

theorem HasPlace.size_leafText {place : Place} (has : buffer.HasPlace place) :
    (buffer.leafText place.leaf).size = buffer.length place.leaf := by
  rcases has with ⟨text, found, _⟩
  rw [length_eq_of_view found, leafText_eq_of_view found]
  rfl

/-- Both children of a parent have shapes with text. -/
theorem WellFormed.children_shown (formed : buffer.WellFormed) {node parent : NodeId}
    (owned : buffer.parent node = some parent) :
    ∃ left right : Shape, buffer.children parent = (left.root, right.root) ∧
      (buffer.Shows left ∧ left.text ≠ []) ∧ buffer.Shows right ∧ right.text ≠ [] := by
  rcases formed.parented node parent owned with ⟨leftId, rightId, leftLength, length, found, _⟩
  rcases formed.shown parent (lt_nodeCount_of_view found) with ⟨shape, rfl, shown⟩
  cases shape with
  | leaf own text => cases shown.symm.trans found
  | branch own left right =>
      rcases shown with ⟨found, _, _, leftText, rightText, leftShown, rightShown⟩
      rcases view_eq_branch_iff.mp found with ⟨above, stored⟩
      refine ⟨left, right, ?_, ⟨leftShown, leftText⟩, rightShown, rightText⟩
      simp only [children, Shape.root_branch, stored]

theorem WellFormed.hasPlace_nextLeafWithin (formed : buffer.WellFormed) {fuel : Nat}
    {node leaf : NodeId} (follows : buffer.nextLeafWithin fuel node = some leaf) :
    buffer.HasPlace ⟨leaf, 0⟩ := by
  induction fuel generalizing node with
  | zero => cases follows
  | succ fuel inductionHypothesis =>
      rw [nextLeafWithin] at follows
      cases owned : buffer.parent node with
      | none => simp only [owned, reduceCtorEq] at follows
      | some parent =>
          rcases formed.children_shown owned with ⟨left, right, children, _, rightShown, _⟩
          simp only [owned, children] at follows
          split at follows
          · exact inductionHypothesis follows
          · cases follows
            rcases firstLeafWithin_of_shows rightShown _ rightShown.height_lt with
              ⟨text, rest, chunks⟩
            exact rightShown.hasPlace_chunk (by rw [chunks]; exact List.mem_cons_self)
              (Nat.zero_le text.length)

theorem WellFormed.hasPlace_prevLeafWithin (formed : buffer.WellFormed) {fuel : Nat}
    {node leaf : NodeId} (precedes : buffer.prevLeafWithin fuel node = some leaf) :
    buffer.HasPlace ⟨leaf, 0⟩ := by
  induction fuel generalizing node with
  | zero => cases precedes
  | succ fuel inductionHypothesis =>
      rw [prevLeafWithin] at precedes
      cases owned : buffer.parent node with
      | none => simp only [owned, reduceCtorEq] at precedes
      | some parent =>
          rcases formed.children_shown owned with ⟨left, right, children, ⟨leftShown, _⟩, _⟩
          simp only [owned, children] at precedes
          split at precedes
          · exact inductionHypothesis precedes
          · cases precedes
            rcases lastLeafWithin_of_shows leftShown _ leftShown.height_lt with
              ⟨text, before, chunks⟩
            exact leftShown.hasPlace_chunk
              (by rw [chunks]; exact List.mem_append_right _ (List.mem_singleton.mpr rfl))
              (Nat.zero_le text.length)

theorem WellFormed.hasPlace_settle (formed : buffer.WellFormed) {place : Place}
    (has : buffer.HasPlace place) : buffer.HasPlace (buffer.settle place) := by
  rw [settle]
  generalize buffer.nodeCount + 1 = fuel
  induction fuel generalizing place with
  | zero => exact has
  | succ fuel inductionHypothesis =>
      rw [settleWithin]
      split
      · exact has
      · cases follows : buffer.nextLeaf place.leaf with
        | none => exact has.move (Nat.le_refl _)
        | some next => exact inductionHypothesis (formed.hasPlace_nextLeafWithin follows)

theorem WellFormed.hasPlace_forward (formed : buffer.WellFormed) {place : Place}
    (has : buffer.HasPlace place) (count : Nat) :
    buffer.HasPlace (buffer.forward place count).2 := by
  rw [forward]
  generalize count + 2 = fuel
  induction fuel generalizing place count with
  | zero => exact has
  | succ fuel inductionHypothesis =>
      have offset := has.offset_le
      rw [← has.size_leafText] at offset
      simp only [forwardWithin]
      split
      · apply formed.hasPlace_settle
        apply has.move
        rw [← has.size_leafText]
        omega
      · cases follows : buffer.nextLeaf place.leaf with
        | none => exact has.move (Nat.le_of_eq has.size_leafText)
        | some next => exact inductionHypothesis (formed.hasPlace_nextLeafWithin follows) _

theorem WellFormed.hasPlace_backwardWithin (formed : buffer.WellFormed) {place : Place}
    (has : buffer.HasPlace place) (fuel count : Nat) :
    buffer.HasPlace (buffer.backwardWithin fuel place count) := by
  induction fuel generalizing place count with
  | zero => exact has
  | succ fuel inductionHypothesis =>
      have offset := has.offset_le
      rw [backwardWithin]
      split
      · exact has.move (Nat.le_trans (Nat.sub_le _ _) offset)
      · cases precedes : buffer.prevLeaf place.leaf with
        | none => exact has.move (Nat.zero_le _)
        | some prev =>
            exact inductionHypothesis
              ((formed.hasPlace_prevLeafWithin precedes).move (Nat.le_refl _)) _

theorem WellFormed.hasPlace_backward (formed : buffer.WellFormed) {place : Place}
    (has : buffer.HasPlace place) (count : Nat) : buffer.HasPlace (buffer.backward place count) :=
  formed.hasPlace_settle (formed.hasPlace_backwardWithin has _ _)

/-- An index of a version is at a place of one of its leaves. -/
theorem hasPlace_locate {shape : Shape} (shown : buffer.Shows shape) {index : Nat}
    (within : index ≤ shape.text.length) : buffer.HasPlace (buffer.locate shape.root index) := by
  have enough := shown.height_lt
  rw [locate]
  generalize buffer.nodeCount = fuel at enough
  induction shape generalizing fuel index with
  | leaf node text =>
      cases fuel with
      | zero => exact absurd enough (Nat.not_lt_zero _)
      | succ fuel =>
          rcases view_eq_leaf_iff.mp shown with ⟨parent, anchors, found⟩
          simp only [locateWithin, Shape.root_leaf, found]
          exact ⟨text.toArray, shown, within⟩
  | branch node left right leftHypothesis rightHypothesis =>
      cases fuel with
      | zero => exact absurd enough (Nat.not_lt_zero _)
      | succ fuel =>
          rcases shown with ⟨found, _, _, _, _, leftShown, rightShown⟩
          rcases view_eq_branch_iff.mp found with ⟨parent, found⟩
          rw [Shape.height] at enough
          rw [Shape.text_branch, List.length_append] at within
          simp only [locateWithin, Shape.root_branch, found]
          split
          · exact leftHypothesis leftShown (by omega) fuel (by omega)
          · exact rightHypothesis rightShown (by omega) fuel (by omega)

end Buffer

end Reparse
