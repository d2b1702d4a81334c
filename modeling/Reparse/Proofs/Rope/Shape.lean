import Reparse.Rope.Split

/-!
# The shape of one version

A version of a text is a root, and what it reads hangs below that root by the
links to children.  A shape is that tree taken out of its buffer: the numbers
of its nodes and the texts of its leaves.  Neither the parents of nodes nor
their anchors belong to it, since a version never reads them.

A buffer shows a shape when it holds its nodes with the right lengths.  Every
question that follows children alone is then answered by the shape, and goes
on being answered so in every buffer that extends the first one.
-/

namespace Reparse

/-- What hangs below a node: the leaves with their texts, and how they are joined. -/
inductive Shape where
  | leaf (node : NodeId) (text : List Char)
  | branch (node : NodeId) (left right : Shape)
deriving DecidableEq, Repr

namespace Shape

def root : Shape → NodeId
  | .leaf node _ => node
  | .branch node _ _ => node

def text : Shape → List Char
  | .leaf _ text => text
  | .branch _ left right => left.text ++ right.text

/-- The leaves from left to right, each with its text. -/
def chunks : Shape → List (NodeId × List Char)
  | .leaf node text => [(node, text)]
  | .branch _ left right => left.chunks ++ right.chunks

def nodes : Shape → List NodeId
  | .leaf node _ => [node]
  | .branch node left right => node :: (left.nodes ++ right.nodes)

def height : Shape → Nat
  | .leaf _ _ => 0
  | .branch _ left right => max left.height right.height + 1

@[simp] theorem root_leaf (node : NodeId) (text : List Char) :
    (Shape.leaf node text).root = node := rfl

@[simp] theorem root_branch (node : NodeId) (left right : Shape) :
    (Shape.branch node left right).root = node := rfl

@[simp] theorem text_leaf (node : NodeId) (text : List Char) :
    (Shape.leaf node text).text = text := rfl

@[simp] theorem text_branch (node : NodeId) (left right : Shape) :
    (Shape.branch node left right).text = left.text ++ right.text := rfl

theorem root_mem_nodes (shape : Shape) : shape.root ∈ shape.nodes := by
  cases shape <;> simp only [root, nodes, List.mem_cons, true_or]

theorem flatMap_chunks (shape : Shape) : shape.chunks.flatMap Prod.snd = shape.text := by
  induction shape with
  | leaf node text => simp only [chunks, List.flatMap_singleton, text_leaf]
  | branch node left right leftHypothesis rightHypothesis =>
      simp only [chunks, List.flatMap_append, leftHypothesis, rightHypothesis, text_branch]

end Shape

/-! ## What a version reads of a node -/

namespace Node

/-- A node without its parent and its anchors. -/
def bare : Node → Node
  | .leaf text _ _ => .leaf text none {}
  | .branch left right leftLength length _ => .branch left right leftLength length none

@[simp] theorem bare_withParent (parent : Option NodeId) (node : Node) :
    (node.withParent parent).bare = node.bare := by
  cases node <;> rfl

end Node

namespace Buffer

/-- What a version reads of a node. -/
def view (buffer : Buffer) (node : NodeId) : Option Node := buffer.nodes[node]?.map Node.bare

variable {buffer : Buffer}

theorem view_eq_leaf_iff {node : NodeId} {text : Array Char} :
    buffer.view node = some (.leaf text none {}) ↔
      ∃ parent anchors, buffer.nodes[node]? = some (.leaf text parent anchors) := by
  rw [view, Option.map_eq_some_iff]
  constructor
  · rintro ⟨content, found, bare⟩
    cases content with
    | leaf other parent anchors =>
        cases bare
        exact ⟨parent, anchors, found⟩
    | branch left right leftLength length parent => cases bare
  · rintro ⟨parent, anchors, found⟩
    exact ⟨_, found, rfl⟩

theorem view_eq_branch_iff {node left right : NodeId} {leftLength length : Nat} :
    buffer.view node = some (.branch left right leftLength length none) ↔
      ∃ parent, buffer.nodes[node]? = some (.branch left right leftLength length parent) := by
  rw [view, Option.map_eq_some_iff]
  constructor
  · rintro ⟨content, found, bare⟩
    cases content with
    | leaf text parent anchors => cases bare
    | branch left' right' leftLength' length' parent =>
        cases bare
        exact ⟨parent, found⟩
  · rintro ⟨parent, found⟩
    exact ⟨_, found, rfl⟩

theorem view_isSome_iff {node : NodeId} : (buffer.view node).isSome ↔ node < buffer.nodeCount := by
  rw [view, Option.isSome_map, isSome_getElem?, nodeCount]

theorem lt_nodeCount_of_view {node : NodeId} {content : Node} (found : buffer.view node = some content) :
    node < buffer.nodeCount :=
  view_isSome_iff.mp (by rw [found]; rfl)

theorem length_eq_of_view {node : NodeId} {content : Node} (found : buffer.view node = some content) :
    buffer.length node = content.length := by
  rw [view, Option.map_eq_some_iff] at found
  rcases found with ⟨original, found, rfl⟩
  simp only [length, found]
  cases original <;> rfl

theorem leafText_eq_of_view {node : NodeId} {content : Node}
    (found : buffer.view node = some content) : buffer.leafText node = content.text := by
  rw [view, Option.map_eq_some_iff] at found
  rcases found with ⟨original, found, rfl⟩
  simp only [leafText, found]
  cases original <;> rfl

/-- The buffer holds the nodes of a shape.  Both sides of a branch have text, and
their numbers are smaller than that of the branch. -/
def Shows (buffer : Buffer) : Shape → Prop
  | .leaf node text => buffer.view node = some (.leaf text.toArray none {})
  | .branch node left right =>
    buffer.view node = some (.branch left.root right.root left.text.length
      (left.text.length + right.text.length) none) ∧
    left.root < node ∧ right.root < node ∧ left.text ≠ [] ∧ right.text ≠ [] ∧
    buffer.Shows left ∧ buffer.Shows right

/-- Nodes of the first buffer are in the second one, and versions read the same of them. -/
def Extends (first second : Buffer) : Prop :=
  ∀ node content, first.view node = some content → second.view node = some content

theorem Extends.refl (buffer : Buffer) : buffer.Extends buffer := fun _ _ found => found

theorem Extends.trans {first second third : Buffer} (one : first.Extends second)
    (two : second.Extends third) : first.Extends third :=
  fun node content found => two node content (one node content found)

theorem Extends.nodeCount_le {first second : Buffer} (grown : first.Extends second) :
    first.nodeCount ≤ second.nodeCount := by
  cases count : first.nodeCount with
  | zero => exact Nat.zero_le _
  | succ last =>
      have present : (first.view last).isSome := view_isSome_iff.mpr (by lia)
      rcases Option.isSome_iff_exists.mp present with ⟨content, found⟩
      exact lt_nodeCount_of_view (grown last content found)

theorem Shows.mono {first second : Buffer} (grown : first.Extends second) {shape : Shape}
    (shown : first.Shows shape) : second.Shows shape := by
  induction shape with
  | leaf node text => exact grown _ _ shown
  | branch node left right leftHypothesis rightHypothesis =>
      rcases shown with ⟨found, leftBelow, rightBelow, leftText, rightText, leftShown, rightShown⟩
      exact ⟨grown _ _ found, leftBelow, rightBelow, leftText, rightText,
        leftHypothesis leftShown, rightHypothesis rightShown⟩

theorem Shows.root_lt {shape : Shape} (shown : buffer.Shows shape) :
    shape.root < buffer.nodeCount := by
  cases shape with
  | leaf node text => exact lt_nodeCount_of_view shown
  | branch node left right => exact lt_nodeCount_of_view shown.1

theorem Shows.length {shape : Shape} (shown : buffer.Shows shape) :
    buffer.length shape.root = shape.text.length := by
  cases shape with
  | leaf node text => exact length_eq_of_view shown
  | branch node left right =>
      rw [Shape.text_branch, List.length_append]
      exact length_eq_of_view shown.1

/-- Children are older than their branches, so walks downwards are short. -/
theorem Shows.height_le {shape : Shape} (shown : buffer.Shows shape) :
    shape.height ≤ shape.root := by
  induction shape with
  | leaf node text => exact Nat.zero_le _
  | branch node left right leftHypothesis rightHypothesis =>
      rcases shown with ⟨_, leftBelow, rightBelow, _, _, leftShown, rightShown⟩
      have first := leftHypothesis leftShown
      have second := rightHypothesis rightShown
      simp only [Shape.height, Shape.root_branch]
      lia

theorem Shows.height_lt {shape : Shape} (shown : buffer.Shows shape) :
    shape.height < buffer.nodeCount :=
  Nat.lt_of_le_of_lt shown.height_le shown.root_lt

/-- The nodes of a shape are older than its root, the root apart. -/
theorem Shows.le_root {shape : Shape} (shown : buffer.Shows shape) {node : NodeId}
    (member : node ∈ shape.nodes) : node ≤ shape.root := by
  induction shape with
  | leaf own text =>
      rw [Shape.nodes, List.mem_singleton] at member
      exact Nat.le_of_eq member
  | branch own left right leftHypothesis rightHypothesis =>
      rcases shown with ⟨_, leftBelow, rightBelow, _, _, leftShown, rightShown⟩
      rw [Shape.nodes, List.mem_cons, List.mem_append] at member
      rcases member with same | inLeft | inRight
      · exact Nat.le_of_eq same
      · exact Nat.le_trans (leftHypothesis leftShown inLeft) (Nat.le_of_lt leftBelow)
      · exact Nat.le_trans (rightHypothesis rightShown inRight) (Nat.le_of_lt rightBelow)

/-- A node has one shape in a buffer. -/
theorem Shows.unique {first second : Shape} (one : buffer.Shows first) (two : buffer.Shows second)
    (same : first.root = second.root) : first = second := by
  induction first generalizing second with
  | leaf node text =>
      cases second with
      | leaf other text' =>
          cases same
          have equal := one.symm.trans two
          injection equal with equal
          injection equal with equal
          rw [List.toArray_inj equal]
      | branch other left right =>
          cases same
          cases one.symm.trans two.1
  | branch node left right leftHypothesis rightHypothesis =>
      cases second with
      | leaf other text =>
          cases same
          cases one.1.symm.trans two
      | branch other left' right' =>
          cases same
          have equal := one.1.symm.trans two.1
          injection equal with equal
          injection equal with leftSame rightSame
          rw [leftHypothesis one.2.2.2.2.2.1 two.2.2.2.2.2.1 leftSame,
            rightHypothesis one.2.2.2.2.2.2 two.2.2.2.2.2.2 rightSame]

/-! ## Questions answered by the shape -/

theorem leavesWithin_of_shows {shape : Shape} (shown : buffer.Shows shape) (fuel : Nat)
    (enough : shape.height < fuel) (rest : List NodeId) :
    buffer.leavesWithin fuel shape.root rest = shape.chunks.map Prod.fst ++ rest := by
  induction shape generalizing fuel rest with
  | leaf node text =>
      cases fuel with
      | zero => exact absurd enough (Nat.not_lt_zero _)
      | succ fuel =>
          rcases view_eq_leaf_iff.mp shown with ⟨parent, anchors, found⟩
          simp only [leavesWithin, Shape.root_leaf, found, Shape.chunks, List.map_cons, List.map_nil,
            List.singleton_append]
  | branch node left right leftHypothesis rightHypothesis =>
      cases fuel with
      | zero => exact absurd enough (Nat.not_lt_zero _)
      | succ fuel =>
          rcases shown with ⟨found, _, _, _, _, leftShown, rightShown⟩
          rcases view_eq_branch_iff.mp found with ⟨parent, found⟩
          simp only [Shape.height] at enough
          simp only [leavesWithin, Shape.root_branch, found, Shape.chunks, List.map_append,
            rightHypothesis rightShown fuel (by omega), leftHypothesis leftShown fuel (by omega),
            List.append_assoc]

theorem leaves_of_shows {shape : Shape} (shown : buffer.Shows shape) :
    buffer.leaves shape.root = shape.chunks.map Prod.fst := by
  rw [leaves, leavesWithin_of_shows shown _ shown.height_lt, List.append_nil]

/-- Each leaf of a shape has the text that the shape says. -/
theorem Shows.view_chunk {shape : Shape} (shown : buffer.Shows shape) {chunk : NodeId × List Char}
    (member : chunk ∈ shape.chunks) :
    buffer.view chunk.1 = some (.leaf chunk.2.toArray none {}) := by
  induction shape with
  | leaf node text =>
      rw [Shape.chunks, List.mem_singleton] at member
      subst member
      exact shown
  | branch node left right leftHypothesis rightHypothesis =>
      rw [Shape.chunks, List.mem_append] at member
      rcases member with inLeft | inRight
      · exact leftHypothesis shown.2.2.2.2.2.1 inLeft
      · exact rightHypothesis shown.2.2.2.2.2.2 inRight

theorem Shows.leafText_chunk {shape : Shape} (shown : buffer.Shows shape)
    {chunk : NodeId × List Char} (member : chunk ∈ shape.chunks) :
    buffer.leafText chunk.1 = chunk.2.toArray :=
  leafText_eq_of_view (shown.view_chunk member)

theorem text_of_shows {shape : Shape} (shown : buffer.Shows shape) :
    buffer.text shape.root = shape.text := by
  rw [text, leaves_of_shows shown, ← shape.flatMap_chunks, List.flatMap_map, List.flatMap_def,
    List.flatMap_def]
  refine congrArg List.flatten (List.map_congr_left fun chunk member => ?_)
  rw [shown.leafText_chunk member]

theorem getElem?_locateWithin {shape : Shape} (shown : buffer.Shows shape) (fuel : Nat)
    (enough : shape.height < fuel) (index : Nat) :
    let place := buffer.locateWithin fuel shape.root index
    (buffer.leafText place.leaf)[place.offset]? = shape.text[index]? := by
  induction shape generalizing fuel index with
  | leaf node text =>
      cases fuel with
      | zero => exact absurd enough (Nat.not_lt_zero _)
      | succ fuel =>
          rcases view_eq_leaf_iff.mp shown with ⟨parent, anchors, found⟩
          simp only [locateWithin, Shape.root_leaf, found, leafText, Node.text, Shape.text,
            List.getElem?_toArray]
  | branch node left right leftHypothesis rightHypothesis =>
      cases fuel with
      | zero => exact absurd enough (Nat.not_lt_zero _)
      | succ fuel =>
          rcases shown with ⟨found, _, _, _, _, leftShown, rightShown⟩
          rcases view_eq_branch_iff.mp found with ⟨parent, found⟩
          simp only [Shape.height] at enough
          simp only [locateWithin, Shape.root_branch, found, Shape.text]
          by_cases before : index < left.text.length
          · rw [if_pos before, List.getElem?_append_left before]
            exact leftHypothesis leftShown fuel (by omega) index
          · rw [if_neg before, List.getElem?_append_right (Nat.le_of_not_lt before)]
            exact rightHypothesis rightShown fuel (by omega) (index - left.text.length)

theorem charAt_of_shows {shape : Shape} (shown : buffer.Shows shape) (index : Nat) :
    buffer.charAt shape.root index = shape.text[index]? :=
  getElem?_locateWithin shown _ shown.height_lt index

end Buffer

end Reparse
