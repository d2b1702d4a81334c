import Reparse.Proofs.Rope.Walking

/-!
# The newest version of a text

A walk upwards stays in a tree whose branches are the parents of their children,
and ends at its root.  Such a tree is current.  A buffer may hold several current
trees at once, the text, what was cut out of it and what is about to be put in,
and they share no node.

Each climb is described from a leaf to the root of any linked shape.  It takes as
many steps as branches lie above the leaf, and numbers grow on the way, so the
fuel is always enough.
-/

namespace Reparse

/-- A list with a mark in it, of which one of two parts has the mark. -/
theorem mark_in_append {α : Type} {first second before after : List α} {mark : α}
    (whole : first ++ second = before ++ mark :: after) :
    (∃ rest, first = before ++ mark :: rest ∧ after = rest ++ second) ∨
      ∃ rest, before = first ++ rest ∧ second = rest ++ mark :: after := by
  rcases List.append_eq_append_iff.mp whole with ⟨rest, prefixed, remaining⟩ | ⟨rest, prefixed, remaining⟩
  · exact Or.inr ⟨rest, prefixed, remaining⟩
  · cases rest with
    | nil =>
        rw [List.append_nil] at prefixed
        rw [List.nil_append] at remaining
        exact Or.inr ⟨[], by rw [prefixed, List.append_nil], remaining.symm⟩
    | cons head tail =>
        rw [List.cons_append] at remaining
        cases remaining
        exact Or.inl ⟨tail, prefixed, rfl⟩

/-- The length of the text of some chunks. -/
def extent (chunks : List (NodeId × List Char)) : Nat := (chunks.flatMap Prod.snd).length

@[simp] theorem extent_nil : extent [] = 0 := rfl

@[simp] theorem extent_cons (chunk : NodeId × List Char) (chunks : List (NodeId × List Char)) :
    extent (chunk :: chunks) = chunk.2.length + extent chunks := by
  rw [extent, List.flatMap_cons, List.length_append, extent]

@[simp] theorem extent_append (first second : List (NodeId × List Char)) :
    extent (first ++ second) = extent first + extent second := by
  rw [extent, List.flatMap_append, List.length_append, extent, extent]

theorem Shape.extent_chunks (shape : Shape) : extent shape.chunks = shape.text.length := by
  rw [extent, shape.flatMap_chunks]

theorem Shape.chunk_mem_nodes {shape : Shape} {chunk : NodeId × List Char}
    (member : chunk ∈ shape.chunks) : chunk.1 ∈ shape.nodes := by
  induction shape with
  | leaf node text =>
      rw [chunks, List.mem_singleton] at member
      rw [member, nodes, List.mem_singleton]
  | branch node left right leftHypothesis rightHypothesis =>
      rw [chunks, List.mem_append] at member
      rw [nodes, List.mem_cons, List.mem_append]
      rcases member with inLeft | inRight
      · exact Or.inr (Or.inl (leftHypothesis inLeft))
      · exact Or.inr (Or.inr (rightHypothesis inRight))

namespace Buffer

variable {buffer : Buffer}

/-- A tree that walks upwards stay in. -/
structure Current (buffer : Buffer) (shape : Shape) : Prop where
  shown : buffer.Shows shape
  linked : buffer.Linked shape
  loose : buffer.parent shape.root = none
  distinct : shape.nodes.Nodup

theorem Current.congr {other : Buffer} {shape : Shape} (current : buffer.Current shape)
    (grown : buffer.Extends other)
    (parents : ∀ node ∈ shape.nodes, other.parent node = buffer.parent node) :
    other.Current shape := by
  refine ⟨current.shown.mono grown, current.linked.congr fun node inner => ?_, ?_, current.distinct⟩
  · exact parents node (Shape.inner_subset_nodes inner)
  · rw [parents _ shape.root_mem_nodes]
    exact current.loose

theorem Current.sameTrees {other : Buffer} {shape : Shape} (current : buffer.Current shape)
    (same : buffer.SameTrees other) : other.Current shape :=
  current.congr same.extends_ fun node _ => same.parent node

/-! ## Climbing to the root -/

section Climbing

variable {shape : Shape}

theorem rootWithin_climb (shown : buffer.Shows shape) (linked : buffer.Linked shape) {node : NodeId}
    (member : node ∈ shape.nodes) :
    ∃ steps, steps + node ≤ shape.root ∧
      ∀ fuel, buffer.rootWithin (fuel + steps) node = buffer.rootWithin fuel shape.root := by
  induction shape with
  | leaf own text =>
      rw [Shape.nodes, List.mem_singleton] at member
      subst member
      exact ⟨0, Nat.le_of_eq (Nat.zero_add _), fun fuel => rfl⟩
  | branch own left right leftHypothesis rightHypothesis =>
      rcases shown with ⟨_, leftBelow, rightBelow, _, _, leftShown, rightShown⟩
      rcases linked with ⟨ownsLeft, ownsRight, leftLinked, rightLinked⟩
      rw [Shape.nodes, List.mem_cons, List.mem_append] at member
      rw [Shape.root_branch]
      rcases member with rfl | inLeft | inRight
      · exact ⟨0, Nat.le_of_eq (Nat.zero_add _), fun fuel => rfl⟩
      · rcases leftHypothesis leftShown leftLinked inLeft with ⟨steps, short, climbs⟩
        refine ⟨steps + 1, by lia, fun fuel => ?_⟩
        rw [← Nat.add_assoc, Nat.add_right_comm, climbs]
        simp only [rootWithin, ownsLeft]
      · rcases rightHypothesis rightShown rightLinked inRight with ⟨steps, short, climbs⟩
        refine ⟨steps + 1, by lia, fun fuel => ?_⟩
        rw [← Nat.add_assoc, Nat.add_right_comm, climbs]
        simp only [rootWithin, ownsRight]

theorem indexWithin_climb (shown : buffer.Shows shape) (linked : buffer.Linked shape)
    (distinct : shape.nodes.Nodup) {before after : List (NodeId × List Char)} {leaf : NodeId}
    {text : List Char} (chunks : shape.chunks = before ++ (leaf, text) :: after) :
    ∃ steps, steps + leaf ≤ shape.root ∧ ∀ fuel index,
      buffer.indexWithin (fuel + steps) leaf index =
        buffer.indexWithin fuel shape.root (extent before + index) := by
  induction shape generalizing before after with
  | leaf own ownText =>
      rw [Shape.chunks, List.singleton_eq_append_iff] at chunks
      rcases chunks with ⟨rfl, only⟩ | ⟨_, impossible⟩
      · cases only
        refine ⟨0, Nat.le_of_eq (Nat.zero_add _), fun fuel index => ?_⟩
        rw [extent_nil, Nat.zero_add]
        rfl
      · cases impossible
  | branch own left right leftHypothesis rightHypothesis =>
      rcases shown with ⟨found, leftBelow, rightBelow, _, _, leftShown, rightShown⟩
      rcases view_eq_branch_iff.mp found with ⟨parent, found⟩
      rcases linked with ⟨ownsLeft, ownsRight, leftLinked, rightLinked⟩
      rw [Shape.nodes, List.nodup_cons, List.nodup_append] at distinct
      rcases distinct with ⟨_, leftDistinct, rightDistinct, apart⟩
      have different : right.root ≠ left.root :=
        (apart _ left.root_mem_nodes _ right.root_mem_nodes).symm
      rw [Shape.chunks] at chunks
      rw [Shape.root_branch]
      rcases mark_in_append chunks with ⟨rest, inLeft, _⟩ | ⟨rest, rfl, inRight⟩
      · rcases leftHypothesis leftShown leftLinked leftDistinct inLeft with ⟨steps, short, climbs⟩
        refine ⟨steps + 1, by lia, fun fuel index => ?_⟩
        rw [← Nat.add_assoc, Nat.add_right_comm, climbs]
        simp only [indexWithin, ownsLeft, found, if_neg different]
      · rcases rightHypothesis rightShown rightLinked rightDistinct inRight with
          ⟨steps, short, climbs⟩
        refine ⟨steps + 1, by lia, fun fuel index => ?_⟩
        rw [← Nat.add_assoc, Nat.add_right_comm, climbs]
        simp only [indexWithin, ownsRight, found, if_pos, extent_append, left.extent_chunks]
        congr 1
        omega

/-- From a last leaf the climb goes on above the root, and from any other one it turns
to the leaf that follows. -/
theorem nextLeafWithin_climb (shown : buffer.Shows shape) (linked : buffer.Linked shape)
    (distinct : shape.nodes.Nodup) {before after : List (NodeId × List Char)} {leaf : NodeId}
    {text : List Char} (chunks : shape.chunks = before ++ (leaf, text) :: after) :
    ∃ steps, steps + leaf ≤ shape.root ∧ ∀ fuel,
      buffer.nextLeafWithin (fuel + steps) leaf =
        match after.head? with
        | none => buffer.nextLeafWithin fuel shape.root
        | some next => some next.1 := by
  induction shape generalizing before after with
  | leaf own ownText =>
      rw [Shape.chunks, List.singleton_eq_append_iff] at chunks
      rcases chunks with ⟨rfl, only⟩ | ⟨_, impossible⟩
      · cases only
        exact ⟨0, Nat.le_of_eq (Nat.zero_add _), fun fuel => rfl⟩
      · cases impossible
  | branch own left right leftHypothesis rightHypothesis =>
      rcases shown with ⟨found, leftBelow, rightBelow, _, _, leftShown, rightShown⟩
      rcases view_eq_branch_iff.mp found with ⟨parent, found⟩
      rcases linked with ⟨ownsLeft, ownsRight, leftLinked, rightLinked⟩
      rw [Shape.nodes, List.nodup_cons, List.nodup_append] at distinct
      rcases distinct with ⟨_, leftDistinct, rightDistinct, apart⟩
      have different : left.root ≠ right.root := apart _ left.root_mem_nodes _ right.root_mem_nodes
      rw [Shape.chunks] at chunks
      rw [Shape.root_branch]
      rcases mark_in_append chunks with ⟨rest, inLeft, rfl⟩ | ⟨rest, rfl, inRight⟩
      · rcases leftHypothesis leftShown leftLinked leftDistinct inLeft with ⟨steps, short, climbs⟩
        refine ⟨steps + 1, by lia, fun fuel => ?_⟩
        rw [← Nat.add_assoc, Nat.add_right_comm, climbs]
        cases rest with
        | cons next rest => rfl
        | nil =>
            rcases firstLeafWithin_of_shows rightShown _ rightShown.height_lt with
              ⟨firstText, others, first⟩
            simp only [nextLeafWithin, ownsLeft, children, found, List.nil_append, first,
              List.head?_nil, List.head?_cons, different.symm, false_and, if_false]
      · rcases rightHypothesis rightShown rightLinked rightDistinct inRight with
          ⟨steps, short, climbs⟩
        refine ⟨steps + 1, by lia, fun fuel => ?_⟩
        rw [← Nat.add_assoc, Nat.add_right_comm, climbs]
        cases after with
        | cons next after => rfl
        | nil =>
            simp only [nextLeafWithin, ownsRight, children, found, List.head?_nil, ne_eq, different,
              not_false_eq_true, and_self, if_true]

/-- From a first leaf the climb goes on above the root, and from any other one it turns
to the leaf that precedes. -/
theorem prevLeafWithin_climb (shown : buffer.Shows shape) (linked : buffer.Linked shape)
    (distinct : shape.nodes.Nodup) {before after : List (NodeId × List Char)} {leaf : NodeId}
    {text : List Char} (chunks : shape.chunks = before ++ (leaf, text) :: after) :
    ∃ steps, steps + leaf ≤ shape.root ∧ ∀ fuel,
      buffer.prevLeafWithin (fuel + steps) leaf =
        match before.getLast? with
        | none => buffer.prevLeafWithin fuel shape.root
        | some previous => some previous.1 := by
  induction shape generalizing before after with
  | leaf own ownText =>
      rw [Shape.chunks, List.singleton_eq_append_iff] at chunks
      rcases chunks with ⟨rfl, only⟩ | ⟨_, impossible⟩
      · cases only
        exact ⟨0, Nat.le_of_eq (Nat.zero_add _), fun fuel => rfl⟩
      · cases impossible
  | branch own left right leftHypothesis rightHypothesis =>
      rcases shown with ⟨found, leftBelow, rightBelow, _, _, leftShown, rightShown⟩
      rcases view_eq_branch_iff.mp found with ⟨parent, found⟩
      rcases linked with ⟨ownsLeft, ownsRight, leftLinked, rightLinked⟩
      rw [Shape.nodes, List.nodup_cons, List.nodup_append] at distinct
      rcases distinct with ⟨_, leftDistinct, rightDistinct, apart⟩
      have different : left.root ≠ right.root := apart _ left.root_mem_nodes _ right.root_mem_nodes
      rw [Shape.chunks] at chunks
      rw [Shape.root_branch]
      rcases mark_in_append chunks with ⟨rest, inLeft, rfl⟩ | ⟨rest, rfl, inRight⟩
      · rcases leftHypothesis leftShown leftLinked leftDistinct inLeft with ⟨steps, short, climbs⟩
        refine ⟨steps + 1, by lia, fun fuel => ?_⟩
        rw [← Nat.add_assoc, Nat.add_right_comm, climbs]
        cases before.getLast? with
        | some previous => rfl
        | none =>
            simp only [prevLeafWithin, ownsLeft, children, found, ne_eq, different.symm,
              not_false_eq_true, and_self, if_true]
      · rcases rightHypothesis rightShown rightLinked rightDistinct inRight with
          ⟨steps, short, climbs⟩
        refine ⟨steps + 1, by lia, fun fuel => ?_⟩
        rw [← Nat.add_assoc, Nat.add_right_comm, climbs, List.getLast?_append]
        cases rest.getLast? with
        | some previous => rfl
        | none =>
            rcases lastLeafWithin_of_shows leftShown _ leftShown.height_lt with
              ⟨lastText, others, last⟩
            simp only [prevLeafWithin, ownsRight, children, found, Option.none_or, last,
              List.getLast?_append, List.getLast?_singleton, Option.some_or, different, false_and,
              if_false]

end Climbing

/-! ## What a climb answers in a current tree -/

section Answers

variable {shape : Shape} {before after : List (NodeId × List Char)} {leaf : NodeId}
  {text : List Char}

/-- The fuel of a climb is more than its steps. -/
theorem Current.fuel (current : buffer.Current shape) {steps node : Nat}
    (short : steps + node ≤ shape.root) : ∃ fuel, buffer.nodeCount = fuel + 1 + steps := by
  have below := current.shown.root_lt
  exact ⟨buffer.nodeCount - 1 - steps, by lia⟩

theorem Current.rootOf (current : buffer.Current shape) {node : NodeId}
    (member : node ∈ shape.nodes) : buffer.rootOf node = shape.root := by
  rcases rootWithin_climb current.shown current.linked member with ⟨steps, short, climbs⟩
  rcases current.fuel short with ⟨fuel, enough⟩
  rw [Buffer.rootOf, enough, climbs]
  simp only [rootWithin, current.loose]

/-- Two current trees are the same tree or share no node. -/
theorem Current.apart {other : Shape} (current : buffer.Current shape)
    (current' : buffer.Current other) (different : shape.root ≠ other.root) {node : NodeId}
    (member : node ∈ shape.nodes) : node ∉ other.nodes := by
  intro shared
  exact different ((current.rootOf member).symm.trans (current'.rootOf shared))

theorem Current.indexWithin (current : buffer.Current shape)
    (chunks : shape.chunks = before ++ (leaf, text) :: after) (offset : Nat) :
    buffer.indexOf ⟨leaf, offset⟩ = extent before + offset := by
  rcases indexWithin_climb current.shown current.linked current.distinct chunks with
    ⟨steps, short, climbs⟩
  rcases current.fuel short with ⟨fuel, enough⟩
  rw [indexOf, enough, climbs]
  simp only [Buffer.indexWithin, current.loose]

theorem Current.nextLeaf (current : buffer.Current shape)
    (chunks : shape.chunks = before ++ (leaf, text) :: after) :
    buffer.nextLeaf leaf = after.head?.map Prod.fst := by
  rcases nextLeafWithin_climb current.shown current.linked current.distinct chunks with
    ⟨steps, short, climbs⟩
  rcases current.fuel short with ⟨fuel, enough⟩
  rw [Buffer.nextLeaf, enough, climbs]
  cases after with
  | nil => simp only [nextLeafWithin, current.loose, List.head?_nil, Option.map_none]
  | cons next after => rfl

theorem Current.prevLeaf (current : buffer.Current shape)
    (chunks : shape.chunks = before ++ (leaf, text) :: after) :
    buffer.prevLeaf leaf = before.getLast?.map Prod.fst := by
  rcases prevLeafWithin_climb current.shown current.linked current.distinct chunks with
    ⟨steps, short, climbs⟩
  rcases current.fuel short with ⟨fuel, enough⟩
  rw [Buffer.prevLeaf, enough, climbs]
  cases before.getLast? with
  | none => simp only [prevLeafWithin, current.loose, Option.map_none]
  | some previous => rfl

end Answers

end Buffer

end Reparse
