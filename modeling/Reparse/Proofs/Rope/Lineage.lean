import Reparse.Proofs.Rope.Ending

/-!
# Children before parents

A branch is made after the two nodes that it joins, and it is made only where both have
text.  It keeps the lengths that they had then, and no length ever changes.  The parent of
a node is overwritten and cleared again and again, also on nodes that several versions
share, but what is written is always a later branch that lists the node.

So numbers grow on the way up and fall on the way down.  Every loop that climbs by
parents comes to a root, and every loop that descends by children comes to a leaf, before
the nodes are used up.

A cut strictly inside a tree stays strictly inside on the way down, or falls between two
children.  The halves of the leaf at the end have text, and so have the branches above it.
-/

namespace Reparse

namespace Shape

end Shape

namespace Buffer

variable {buffer : Buffer}

/-! ## Branches -/

/-- What a branch keeps of its children, which are older than the branch and have text. -/
theorem WellFormed.branch (formed : buffer.WellFormed) {node left right : NodeId}
    {leftLength length : Nat} {parent : Option NodeId}
    (found : buffer.nodes[node]? = some (.branch left right leftLength length parent)) :
    left < node ∧ right < node ∧ 0 < buffer.length left ∧ 0 < buffer.length right ∧
      leftLength = buffer.length left ∧ length = buffer.length left + buffer.length right := by
  have viewed := view_eq_branch_iff.mpr ⟨parent, found⟩
  rcases formed.shown node (lt_nodeCount_of_view viewed) with ⟨shape, rfl, shown⟩
  cases shape with
  | leaf own text => cases shown.symm.trans viewed
  | branch own first second =>
      rcases shown with ⟨same, leftBelow, rightBelow, leftText, rightText, leftShown, rightShown⟩
      cases same.symm.trans viewed
      rw [leftShown.length, rightShown.length]
      exact ⟨leftBelow, rightBelow, List.length_pos_iff.mpr leftText,
        List.length_pos_iff.mpr rightText, rfl, rfl⟩

/-- In a tree with text every node has text. -/
theorem Shows.length_pos {shape : Shape} (shown : buffer.Shows shape) (someText : shape.text ≠ [])
    {node : NodeId} (member : node ∈ shape.nodes) : 0 < buffer.length node := by
  induction shape with
  | leaf own text =>
      cases List.mem_singleton.mp member
      exact Nat.lt_of_lt_of_eq (List.length_pos_iff.mpr someText) shown.length.symm
  | branch own left right leftHypothesis rightHypothesis =>
      have whole := shown.length
      rcases shown with ⟨_, _, _, leftText, rightText, leftShown, rightShown⟩
      rw [Shape.nodes, List.mem_cons, List.mem_append] at member
      rcases member with rfl | inLeft | inRight
      · exact Nat.lt_of_lt_of_eq (List.length_pos_iff.mpr someText) whole.symm
      · exact leftHypothesis leftShown leftText inLeft
      · exact rightHypothesis rightShown rightText inRight

/-! ## Climbing -/

/-- A descent by children takes no more steps than there are nodes with smaller numbers.  What
holds with any fuel where there is no branch, and is carried up to a branch with one more, holds
where the fuel suffices. -/
theorem WellFormed.descend (formed : buffer.WellFormed) {motive : Nat → NodeId → Prop}
    (atLeaf : ∀ fuel node, (∀ left right leftLength length parent,
      buffer.nodes[node]? ≠ some (.branch left right leftLength length parent)) → motive fuel node)
    (above : ∀ fuel node left right leftLength length parent,
      buffer.nodes[node]? = some (.branch left right leftLength length parent) →
        motive fuel left → motive fuel right → motive (fuel + 1) node) {fuel : Nat} {node : NodeId}
    (enough : node < buffer.nodeCount → node < fuel) : motive fuel node := by
  induction fuel generalizing node with
  | zero =>
      refine atLeaf 0 node fun left right leftLength length parent found => ?_
      have within := lt_nodeCount_of_view (view_eq_branch_iff.mpr ⟨parent, found⟩)
      exact absurd (enough within) (Nat.not_lt_zero _)
  | succ fuel inductionHypothesis =>
      cases found : buffer.nodes[node]? with
      | none =>
          refine atLeaf (fuel + 1) node fun left right leftLength length parent => ?_
          rw [found]
          intro same
          cases same
      | some content =>
          cases content with
          | leaf text parent anchors =>
              refine atLeaf (fuel + 1) node fun left right leftLength length parent => ?_
              rw [found]
              intro same
              cases same
          | branch left right leftLength length parent =>
              have within := lt_nodeCount_of_view (view_eq_branch_iff.mpr ⟨parent, found⟩)
              rcases formed.branch found with ⟨leftBelow, rightBelow, _⟩
              have few := enough within
              exact above fuel node left right leftLength length parent found
                (inductionHypothesis fun _ => by lia) (inductionHypothesis fun _ => by lia)

end Buffer

namespace Desk

/-- The first leaf is listed by two branches, and the later one is its parent. -/
example :
    let buffer := (run [.newBuffer, .rope 0 "ab", .rope 0 "cd", .concat 0 1, .rope 0 "ef",
      .concat 0 3]).store.buffer 0
    buffer.children 2 = (0, 1) ∧ buffer.children 4 = (0, 3) ∧ buffer.parent 0 = some 4 ∧
      buffer.parent 1 = some 2 := by
  decide +kernel

end Desk

end Reparse
