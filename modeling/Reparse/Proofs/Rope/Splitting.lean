import Reparse.Proofs.Rope.Cutting

/-!
# Cutting a tree in two

A tree is cut along one path.  The leaf at the end of the path gets two halves,
and every branch above it is made again on the side that it falls to.  `Shape.cut`
says which two trees come out, and `Shape.cutPlace` where an anchor goes.  Both
are plain recursions on the shape, so everything about texts and numbers of nodes
is settled without a buffer.

A cut relinks only nodes of the tree that is cut, and moves only anchors of the
leaf at the end of the path.  If the branches of the tree are the parents of their
children, then so are those of both halves.
-/

namespace Reparse

namespace Shape

/-- The nodes below the root. -/
def inner : Shape → List NodeId
  | .leaf _ _ => []
  | .branch _ left right => left.nodes ++ right.nodes

theorem nodes_eq_cons (shape : Shape) : shape.nodes = shape.root :: shape.inner := by
  cases shape <;> rfl

theorem inner_subset_nodes {shape : Shape} {node : NodeId} (member : node ∈ shape.inner) :
    node ∈ shape.nodes := by
  rw [nodes_eq_cons]
  exact List.mem_cons_of_mem _ member

theorem root_notMem_inner {shape : Shape} (distinct : shape.nodes.Nodup) :
    shape.root ∉ shape.inner := by
  rw [nodes_eq_cons] at distinct
  exact (List.nodup_cons.mp distinct).1

/-! ## The two halves of a shape -/

/-- What a cut makes of a shape, and the first number that it leaves for other nodes. -/
structure Halves where
  first : Shape
  rest : Shape
  next : Nat
deriving Repr

/-- All nodes of the two halves. -/
def Halves.nodes (halves : Halves) : List NodeId := halves.first.nodes ++ halves.rest.nodes

/-- Cut a shape in front of a character.  New nodes are numbered from `next` on. -/
def cut : Shape → (index next : Nat) → Halves
  | .leaf _ text, index, next =>
    ⟨.leaf next (text.take index), .leaf (next + 1) (text.drop index), next + 2⟩
  | .branch _ left right, index, next =>
    if index < left.text.length then
      let halves := left.cut index next
      ⟨halves.first, .branch halves.next halves.rest right, halves.next + 1⟩
    else if left.text.length < index then
      let halves := right.cut (index - left.text.length) next
      ⟨.branch halves.next left halves.first, halves.rest, halves.next + 1⟩
    else ⟨left, right, next⟩

/-- Where the place of an anchor goes when the shape is cut. -/
def cutPlace : Shape → (index next : Nat) → Place → Place
  | .leaf node _, index, next, place => place.afterCut node index next
  | .branch _ left right, index, next, place =>
    if index < left.text.length then left.cutPlace index next place
    else if left.text.length < index then
      right.cutPlace (index - left.text.length) next place
    else place

section Branch

variable {left right : Shape} {index : Nat}

theorem cut_branch_left (before : index < left.text.length) (node : NodeId) (next : Nat) :
    (branch node left right).cut index next =
      ⟨(left.cut index next).first,
        .branch (left.cut index next).next (left.cut index next).rest right,
        (left.cut index next).next + 1⟩ := by
  rw [cut, if_pos before]

theorem cut_branch_right (after : left.text.length < index) (node : NodeId) (next : Nat) :
    (branch node left right).cut index next =
      ⟨.branch (right.cut (index - left.text.length) next).next left
          (right.cut (index - left.text.length) next).first,
        (right.cut (index - left.text.length) next).rest,
        (right.cut (index - left.text.length) next).next + 1⟩ := by
  rw [cut, if_neg (Nat.lt_asymm after), if_pos after]

theorem cut_branch_between (left right : Shape) (node : NodeId) (next : Nat) :
    (branch node left right).cut left.text.length next = ⟨left, right, next⟩ := by
  rw [cut, if_neg (Nat.lt_irrefl _), if_neg (Nat.lt_irrefl _)]

theorem cutPlace_branch_left (before : index < left.text.length) (node : NodeId) (next : Nat)
    (place : Place) :
    (branch node left right).cutPlace index next place = left.cutPlace index next place := by
  rw [cutPlace, if_pos before]

theorem cutPlace_branch_right (after : left.text.length < index) (node : NodeId) (next : Nat)
    (place : Place) :
    (branch node left right).cutPlace index next place =
      right.cutPlace (index - left.text.length) next place := by
  rw [cutPlace, if_neg (Nat.lt_asymm after), if_pos after]

theorem cutPlace_branch_between (left right : Shape) (node : NodeId) (next : Nat) (place : Place) :
    (branch node left right).cutPlace left.text.length next place = place := by
  rw [cutPlace, if_neg (Nat.lt_irrefl _), if_neg (Nat.lt_irrefl _)]

end Branch

theorem text_cut (shape : Shape) (index next : Nat) :
    (shape.cut index next).first.text = shape.text.take index ∧
      (shape.cut index next).rest.text = shape.text.drop index := by
  induction shape generalizing index with
  | leaf node text => exact ⟨rfl, rfl⟩
  | branch node left right leftHypothesis rightHypothesis =>
      rcases Nat.lt_trichotomy index left.text.length with before | rfl | after
      · have halves := leftHypothesis index
        rw [cut_branch_left before, text_branch, text_branch, halves.1, halves.2,
          List.take_append_of_le_length (Nat.le_of_lt before),
          List.drop_append_of_le_length (Nat.le_of_lt before)]
        exact ⟨rfl, rfl⟩
      · rw [cut_branch_between, text_branch, List.take_left, List.drop_left]
        exact ⟨rfl, rfl⟩
      · have halves := rightHypothesis (index - left.text.length)
        rw [cut_branch_right after, text_branch, text_branch, halves.1, halves.2, List.take_append,
          List.drop_append, List.take_of_length_le (Nat.le_of_lt after),
          List.drop_of_length_le (Nat.le_of_lt after), List.nil_append]
        exact ⟨rfl, rfl⟩

theorem le_next_cut (shape : Shape) (index next : Nat) : next ≤ (shape.cut index next).next := by
  induction shape generalizing index with
  | leaf node text => exact Nat.le_add_right next 2
  | branch node left right leftHypothesis rightHypothesis =>
      rcases Nat.lt_trichotomy index left.text.length with before | rfl | after
      · rw [cut_branch_left before]
        exact Nat.le_succ_of_le (leftHypothesis index)
      · apply Nat.le_of_eq
        rw [cut_branch_between]
      · rw [cut_branch_right after]
        exact Nat.le_succ_of_le (rightHypothesis _)

/-- The halves are made of nodes below the root and of new ones. -/
theorem mem_nodes_cut {shape : Shape} {index next : Nat} {node : NodeId}
    (member : node ∈ (shape.cut index next).nodes) :
    node ∈ shape.inner ∨ next ≤ node ∧ node < (shape.cut index next).next := by
  induction shape generalizing index with
  | leaf own text =>
      simp only [cut, Halves.nodes, nodes, List.singleton_append, List.mem_cons, List.not_mem_nil,
        or_false] at member
      right
      rcases member with rfl | rfl
      · exact ⟨Nat.le_refl _, Nat.lt_add_of_pos_right Nat.two_pos⟩
      · exact ⟨Nat.le_succ _, Nat.lt_succ_self _⟩
  | branch own left right leftHypothesis rightHypothesis =>
      rw [inner, List.mem_append]
      rcases Nat.lt_trichotomy index left.text.length with before | rfl | after
      · have below := left.le_next_cut index next
        rw [cut_branch_left before] at member ⊢
        simp only [Halves.nodes, nodes, List.mem_append, List.mem_cons] at member leftHypothesis ⊢
        have known := @leftHypothesis index
        grind [inner_subset_nodes]
      · rw [cut_branch_between] at member
        exact Or.inl (List.mem_append.mp member)
      · have below := right.le_next_cut (index - left.text.length) next
        rw [cut_branch_right after] at member ⊢
        simp only [Halves.nodes, nodes, List.mem_append, List.mem_cons] at member rightHypothesis ⊢
        have known := @rightHypothesis (index - left.text.length)
        grind [inner_subset_nodes]

/-- The halves of a tree share no node, if the tree names none twice. -/
theorem nodup_cut {shape : Shape} (index : Nat) {next : Nat} (distinct : shape.nodes.Nodup)
    (old : ∀ node ∈ shape.nodes, node < next) : (shape.cut index next).nodes.Nodup := by
  induction shape generalizing index with
  | leaf own text =>
      simp only [cut, Halves.nodes, nodes, List.singleton_append, List.nodup_cons,
        List.mem_singleton, List.not_mem_nil, not_false_eq_true, List.nodup_nil, and_true]
      exact Nat.ne_of_lt (Nat.lt_succ_self next)
  | branch own left right leftHypothesis rightHypothesis =>
      rw [nodes, List.nodup_cons, List.nodup_append] at distinct
      rcases distinct with ⟨_, leftDistinct, rightDistinct, apart⟩
      have leftOld : ∀ node ∈ left.nodes, node < next := fun node member =>
        old node (List.mem_cons_of_mem _ (List.mem_append_left _ member))
      have rightOld : ∀ node ∈ right.nodes, node < next := fun node member =>
        old node (List.mem_cons_of_mem _ (List.mem_append_right _ member))
      rcases Nat.lt_trichotomy index left.text.length with before | rfl | after
      · have halves := leftHypothesis index leftDistinct leftOld
        have below := left.le_next_cut index next
        have origin := @mem_nodes_cut left index next
        rw [cut_branch_left before]
        simp only [Halves.nodes, nodes, List.nodup_append, List.nodup_cons, List.mem_append,
          List.mem_cons] at halves origin ⊢
        grind [inner_subset_nodes]
      · rw [cut_branch_between]
        exact List.nodup_append.mpr ⟨leftDistinct, rightDistinct, apart⟩
      · have halves := rightHypothesis (index - left.text.length) rightDistinct rightOld
        have below := right.le_next_cut (index - left.text.length) next
        have origin := @mem_nodes_cut right (index - left.text.length) next
        rw [cut_branch_right after]
        simp only [Halves.nodes, nodes, List.nodup_append, List.nodup_cons, List.mem_append,
          List.mem_cons] at halves origin ⊢
        grind [inner_subset_nodes]

/-- Places outside a shape are not touched by a cut. -/
theorem cutPlace_of_notMem {shape : Shape} {index next : Nat} {place : Place}
    (outside : place.leaf ∉ shape.nodes) : shape.cutPlace index next place = place := by
  induction shape generalizing index with
  | leaf own text =>
      rw [nodes, List.mem_singleton] at outside
      exact Place.afterCut_of_ne outside index next
  | branch own left right leftHypothesis rightHypothesis =>
      rw [nodes, List.mem_cons, List.mem_append, not_or, not_or] at outside
      rcases Nat.lt_trichotomy index left.text.length with before | rfl | after
      · rw [cutPlace_branch_left before]
        exact leftHypothesis outside.2.1
      · exact cutPlace_branch_between left right own next place
      · rw [cutPlace_branch_right after]
        exact rightHypothesis outside.2.2

/-! ## Places that hold a character -/

/-- The place that stays with the character at an index: in front of it, or past it
where a leaf ends there. -/
def spot (past : Bool) : Shape → Nat → Option Place
  | .leaf node text, index =>
    if past then (if index + 1 = text.length then some ⟨node, text.length⟩ else none)
    else if index < text.length then some ⟨node, index⟩ else none
  | .branch _ left right, index =>
    if index < left.text.length then left.spot past index
    else right.spot past (index - left.text.length)

theorem lt_length_of_spot {past : Bool} {shape : Shape} {index : Nat} {place : Place}
    (holds : shape.spot past index = some place) : index < shape.text.length := by
  induction shape generalizing index with
  | leaf node text =>
      rw [spot] at holds
      rw [text_leaf]
      split at holds
      · split at holds
        · omega
        · cases holds
      · split at holds
        · assumption
        · cases holds
  | branch node left right leftHypothesis rightHypothesis =>
      rw [spot] at holds
      rw [text_branch, List.length_append]
      split at holds
      · omega
      · have inRight := rightHypothesis holds
        omega

theorem leaf_mem_of_spot {past : Bool} {shape : Shape} {index : Nat} {place : Place}
    (holds : shape.spot past index = some place) : place.leaf ∈ shape.nodes := by
  induction shape generalizing index with
  | leaf node text =>
      rw [spot] at holds
      rw [nodes, List.mem_singleton]
      split at holds <;> split at holds <;> cases holds <;> rfl
  | branch node left right leftHypothesis rightHypothesis =>
      rw [spot] at holds
      rw [nodes, List.mem_cons, List.mem_append]
      split at holds
      · exact Or.inr (Or.inl (leftHypothesis holds))
      · exact Or.inr (Or.inr (rightHypothesis holds))

/-- A place that stays with a character goes along with it when the tree is cut. -/
theorem spot_cut {past : Bool} {shape : Shape} {index next own : Nat} {place : Place}
    (distinct : shape.nodes.Nodup) (within : index < shape.text.length)
    (holds : shape.spot past own = some place) :
    (if own < index then (shape.cut index next).first.spot past own
      else (shape.cut index next).rest.spot past (own - index)) =
    some (shape.cutPlace index next place) := by
  induction shape generalizing index own with
  | leaf node text =>
      have inside := lt_length_of_spot holds
      rw [text_leaf] at inside within
      rw [spot] at holds
      rw [cut, cutPlace, spot, spot, List.length_take, List.length_drop]
      cases past with
      | true =>
          rw [if_pos rfl] at holds
          split at holds
          · next last =>
              cases holds
              have target : Place.afterCut node index next ⟨node, text.length⟩ =
                  ⟨next + 1, text.length - index⟩ := by
                rw [Place.afterCut, if_pos rfl, if_neg (show ¬ text.length < index by omega)]
              rw [target, if_neg (show ¬ own < index by omega), if_pos rfl,
                if_pos (show own - index + 1 = text.length - index by omega)]
          · cases holds
      | false =>
          rw [if_neg Bool.false_ne_true, if_pos inside] at holds
          cases holds
          rw [Place.afterCut, if_pos rfl, if_neg Bool.false_ne_true, if_neg Bool.false_ne_true]
          by_cases first : own < index
          · rw [if_pos first, if_pos (show own < min index text.length by omega), if_pos first]
          · rw [if_neg first, if_pos (show own - index < text.length - index by omega),
              if_neg first]
  | branch node left right leftHypothesis rightHypothesis =>
      rw [nodes, List.nodup_cons, List.nodup_append] at distinct
      rcases distinct with ⟨_, leftDistinct, rightDistinct, apart⟩
      rw [text_branch, List.length_append] at within
      rw [spot] at holds
      rcases Nat.lt_trichotomy index left.text.length with before | rfl | after
      · have firstLength : (left.cut index next).rest.text.length = left.text.length - index := by
          rw [(left.text_cut index next).2, List.length_drop]
        rw [cut_branch_left before, cutPlace_branch_left before, spot, firstLength]
        by_cases inLeft : own < left.text.length
        · rw [if_pos inLeft] at holds
          rw [← leftHypothesis leftDistinct before holds]
          by_cases first : own < index
          · rw [if_pos first, if_pos first]
          · rw [if_neg first, if_neg first, if_pos (by omega)]
        · rw [if_neg inLeft] at holds
          rw [if_neg (by omega), if_neg (by omega), cutPlace_of_notMem, ← holds]
          · congr 1
            omega
          · intro member
            exact apart _ member _ (leaf_mem_of_spot holds) rfl
      · rw [cut_branch_between, cutPlace_branch_between, ← holds]
      · have firstLength : (right.cut (index - left.text.length) next).first.text.length =
            index - left.text.length := by
          rw [(right.text_cut _ next).1, List.length_take]
          omega
        rw [cut_branch_right after, cutPlace_branch_right after, spot]
        by_cases inLeft : own < left.text.length
        · rw [if_pos inLeft] at holds
          rw [if_pos (by omega), if_pos inLeft, cutPlace_of_notMem, holds]
          intro member
          exact apart _ (leaf_mem_of_spot holds) _ member rfl
        · rw [if_neg inLeft] at holds
          rw [if_neg inLeft, ← rightHypothesis rightDistinct (by omega) holds]
          by_cases first : own < index
          · rw [if_pos first, if_pos (by omega)]
          · rw [if_neg first, if_neg (by omega)]
            congr 1
            omega

end Shape

namespace Buffer

variable {buffer : Buffer}

/-! ## Trees whose branches are the parents of their children -/

/-- The branches of a shape are the parents of their children. -/
def Linked (buffer : Buffer) : Shape → Prop
  | .leaf _ _ => True
  | .branch node left right =>
    buffer.parent left.root = some node ∧ buffer.parent right.root = some node ∧
      buffer.Linked left ∧ buffer.Linked right

theorem Linked.congr {other : Buffer} {shape : Shape} (linked : buffer.Linked shape)
    (kept : ∀ node ∈ shape.inner, other.parent node = buffer.parent node) : other.Linked shape := by
  induction shape with
  | leaf node text => trivial
  | branch node left right leftHypothesis rightHypothesis =>
      rcases linked with ⟨ownsLeft, ownsRight, leftLinked, rightLinked⟩
      have keptLeft : ∀ below ∈ left.nodes, other.parent below = buffer.parent below :=
        fun below member => kept below (List.mem_append_left _ member)
      have keptRight : ∀ below ∈ right.nodes, other.parent below = buffer.parent below :=
        fun below member => kept below (List.mem_append_right _ member)
      refine ⟨?_, ?_, leftHypothesis leftLinked ?_, rightHypothesis rightLinked ?_⟩
      · rw [keptLeft _ left.root_mem_nodes]
        exact ownsLeft
      · rw [keptRight _ right.root_mem_nodes]
        exact ownsRight
      · exact fun below member => keptLeft below (Shape.inner_subset_nodes member)
      · exact fun below member => keptRight below (Shape.inner_subset_nodes member)

/-- A tree stays linked when another branch adopts nodes that are not below its root. -/
theorem Linked.addBranch_of_notMem {shape left right : Shape} (linked : buffer.Linked shape)
    (leftShown : buffer.Shows left) (rightShown : buffer.Shows right)
    (leftApart : left.root ∉ shape.inner) (rightApart : right.root ∉ shape.inner) :
    (buffer.addBranch left.root right.root).2.Linked shape := by
  refine linked.congr fun node member => ?_
  rw [parent_addBranch buffer leftShown.root_lt rightShown.root_lt, if_neg]
  rintro (same | same)
  · exact leftApart (same ▸ member)
  · exact rightApart (same ▸ member)

/-- Two linked trees without a common node give a linked tree. -/
theorem Linked.addBranch {left right : Shape} (leftLinked : buffer.Linked left)
    (rightLinked : buffer.Linked right) (leftShown : buffer.Shows left)
    (rightShown : buffer.Shows right) (distinct : (left.nodes ++ right.nodes).Nodup) :
    (buffer.addBranch left.root right.root).2.Linked (.branch buffer.nodeCount left right) := by
  rcases List.nodup_append.mp distinct with ⟨leftDistinct, rightDistinct, apart⟩
  refine ⟨?_, ?_, ?_, ?_⟩
  · rw [parent_addBranch buffer leftShown.root_lt rightShown.root_lt, if_pos (Or.inl rfl)]
  · rw [parent_addBranch buffer leftShown.root_lt rightShown.root_lt, if_pos (Or.inr rfl)]
  · refine leftLinked.addBranch_of_notMem leftShown rightShown
      (Shape.root_notMem_inner leftDistinct) fun member => ?_
    exact apart _ (Shape.inner_subset_nodes member) _ right.root_mem_nodes rfl
  · refine rightLinked.addBranch_of_notMem leftShown rightShown (fun member => ?_)
      (Shape.root_notMem_inner rightDistinct)
    exact apart _ left.root_mem_nodes _ (Shape.inner_subset_nodes member) rfl

/-! ## Cutting along a path -/

theorem LeafCut.wellFormed {before after : Buffer} {leaf : NodeId} {text : Array Char} {cut : Nat}
    (done : before.LeafCut after leaf text cut) (formed : before.WellFormed) : after.WellFormed := by
  constructor
  · intro node within
    rw [done.count] at within
    rcases Nat.lt_succ_iff_lt_or_eq.mp within with earlier | rfl
    · rcases Nat.lt_succ_iff_lt_or_eq.mp earlier with old | rfl
      · rcases formed.shown node old with ⟨shape, same, shown⟩
        exact ⟨shape, same, shown.mono done.grown⟩
      · exact ⟨.leaf _ (text.extract 0 cut).toList, rfl, done.left⟩
    · exact ⟨.leaf _ (text.extract cut text.size).toList, rfl, done.right⟩
  · intro node branch owned
    rw [done.parent] at owned
    rcases formed.parented node branch owned with ⟨left, right, leftLength, length, found, listed⟩
    exact ⟨left, right, leftLength, length, done.grown _ _ found, listed⟩

/-- What cutting a tree does to its buffer. -/
structure TreeCut (before after : Buffer) (shape : Shape) (index : Nat) (halves : Shape.Halves) :
    Prop where
  grown : before.Extends after
  formed : after.WellFormed
  seated : after.Seated
  first : after.Shows halves.first
  rest : after.Shows halves.rest
  parent : ∀ node, node < before.nodeCount → node ∉ shape.inner →
    after.parent node = before.parent node
  linked : before.Linked shape → shape.nodes.Nodup →
    after.Linked halves.first ∧ after.Linked halves.rest
  anchor : ∀ anchor, after.anchor? anchor =
    (before.anchor? anchor).map (shape.cutPlace index before.nodeCount)
  count : after.nodeCount = halves.next

/-- Nodes of a shape that a buffer shows are nodes of the buffer. -/
theorem Shows.lt_nodeCount {shape : Shape} (shown : buffer.Shows shape) {node : NodeId}
    (member : node ∈ shape.nodes) : node < buffer.nodeCount :=
  Nat.lt_of_le_of_lt (shown.le_root member) shown.root_lt

section Joining

variable {before after : Buffer} {node : NodeId} {left right : Shape} {index : Nat}

/-- Where the left side was cut, its rest is joined with the right side. -/
theorem TreeCut.joinRest (done : before.TreeCut after left index (left.cut index before.nodeCount))
    (shown : before.Shows (.branch node left right)) (inside : index < left.text.length) :
    before.TreeCut (after.addBranch (left.cut index before.nodeCount).rest.root right.root).2
      (.branch node left right) index ((Shape.branch node left right).cut index before.nodeCount) := by
  rcases shown with ⟨_, _, _, _, rightText, leftShown, rightShown⟩
  rw [Shape.cut_branch_left inside]
  have rightStays := rightShown.mono done.grown
  have restText : (left.cut index before.nodeCount).rest.text ≠ [] := by
    rw [(left.text_cut index _).2]
    intro empty
    rw [List.drop_eq_nil_iff] at empty
    omega
  have adopts := parent_addBranch after done.rest.root_lt rightStays.root_lt
  constructor
  · exact done.grown.trans (after.extends_addBranch _ _)
  · exact done.formed.addBranch done.rest rightStays restText rightText
  · exact done.seated.addBranch _ _
  · exact done.first.mono (after.extends_addBranch _ _)
  · rw [← done.count]
    exact shows_addBranch after done.rest rightStays restText rightText
  · intro other old notInner
    rw [Shape.inner, List.mem_append, not_or] at notInner
    rw [adopts, if_neg, done.parent other old fun inner => notInner.1 (Shape.inner_subset_nodes inner)]
    rintro (isRest | isRight)
    · -- The rest is below the old root or new, so the node outside is not its root.
      have origin := @Shape.mem_nodes_cut left index before.nodeCount _
        (List.mem_append_right (left.cut index before.nodeCount).first.nodes
          (Shape.root_mem_nodes _))
      rw [← isRest] at origin
      rcases origin with inner | new
      · exact notInner.1 (Shape.inner_subset_nodes inner)
      · exact absurd old (Nat.not_lt_of_le new.1)
    · exact notInner.2 (isRight ▸ right.root_mem_nodes)
  · intro linked distinct
    rcases linked with ⟨_, _, leftLinked, rightLinked⟩
    rw [Shape.nodes, List.nodup_cons, List.nodup_append] at distinct
    rcases distinct with ⟨_, leftDistinct, rightDistinct, apart⟩
    rcases done.linked leftLinked leftDistinct with ⟨firstLinked, restLinked⟩
    have halves := Shape.nodup_cut index leftDistinct
      (fun other member => leftShown.lt_nodeCount member)
    have outside : ∀ other ∈ (left.cut index before.nodeCount).nodes, other ∉ right.nodes := by
      intro other member inRight
      rcases Shape.mem_nodes_cut member with inner | new
      · exact apart other (Shape.inner_subset_nodes inner) other inRight rfl
      · exact absurd (rightShown.lt_nodeCount inRight) (Nat.not_lt_of_le new.1)
    have rightKept : after.Linked right := rightLinked.congr fun other inner =>
      done.parent other (rightShown.lt_nodeCount (Shape.inner_subset_nodes inner)) fun inLeft =>
        apart other (Shape.inner_subset_nodes inLeft) other (Shape.inner_subset_nodes inner) rfl
    rcases List.nodup_append.mp halves with ⟨_, restDistinct, halvesApart⟩
    refine ⟨?_, ?_⟩
    · refine firstLinked.addBranch_of_notMem done.rest rightStays (fun inner => ?_) fun inner => ?_
      · exact halvesApart _ (Shape.inner_subset_nodes inner) _ (Shape.root_mem_nodes _) rfl
      · exact outside _ (List.mem_append_left _ (Shape.inner_subset_nodes inner)) right.root_mem_nodes
    · rw [← done.count]
      refine restLinked.addBranch rightKept done.rest rightStays ?_
      refine List.nodup_append.mpr ⟨restDistinct, rightDistinct, fun other inRest another inRight same => ?_⟩
      exact outside other (List.mem_append_right _ inRest) (same ▸ inRight)
  · intro anchor
    rw [anchor?_addBranch, done.anchor]
    refine congrArg (Option.map · _) (funext fun place => ?_)
    rw [Shape.cutPlace_branch_left inside]
  · rw [nodeCount_addBranch, done.count]

/-- Where the right side was cut, the left side is joined with its beginning. -/
theorem TreeCut.joinFirst
    (done : before.TreeCut after right (index - left.text.length)
      (right.cut (index - left.text.length) before.nodeCount))
    (shown : before.Shows (.branch node left right)) (inside : left.text.length < index) :
    before.TreeCut
      (after.addBranch left.root (right.cut (index - left.text.length) before.nodeCount).first.root).2
      (.branch node left right) index ((Shape.branch node left right).cut index before.nodeCount) := by
  rcases shown with ⟨_, _, _, leftText, rightText, leftShown, rightShown⟩
  rw [Shape.cut_branch_right inside]
  have leftStays := leftShown.mono done.grown
  have firstText : (right.cut (index - left.text.length) before.nodeCount).first.text ≠ [] := by
    rw [(right.text_cut _ _).1]
    intro empty
    rw [List.take_eq_nil_iff] at empty
    rcases empty with atStart | noText
    · omega
    · exact rightText noText
  have adopts := parent_addBranch after leftStays.root_lt done.first.root_lt
  constructor
  · exact done.grown.trans (after.extends_addBranch _ _)
  · exact done.formed.addBranch leftStays done.first leftText firstText
  · exact done.seated.addBranch _ _
  · rw [← done.count]
    exact shows_addBranch after leftStays done.first leftText firstText
  · exact done.rest.mono (after.extends_addBranch _ _)
  · intro other old notInner
    rw [Shape.inner, List.mem_append, not_or] at notInner
    rw [adopts, if_neg, done.parent other old fun inner => notInner.2 (Shape.inner_subset_nodes inner)]
    rintro (isLeft | isFirst)
    · exact notInner.1 (isLeft ▸ left.root_mem_nodes)
    · have origin := @Shape.mem_nodes_cut right (index - left.text.length) before.nodeCount _
        (List.mem_append_left (right.cut (index - left.text.length) before.nodeCount).rest.nodes
          (Shape.root_mem_nodes _))
      rw [← isFirst] at origin
      rcases origin with inner | new
      · exact notInner.2 (Shape.inner_subset_nodes inner)
      · exact absurd old (Nat.not_lt_of_le new.1)
  · intro linked distinct
    rcases linked with ⟨_, _, leftLinked, rightLinked⟩
    rw [Shape.nodes, List.nodup_cons, List.nodup_append] at distinct
    rcases distinct with ⟨_, leftDistinct, rightDistinct, apart⟩
    rcases done.linked rightLinked rightDistinct with ⟨firstLinked, restLinked⟩
    have halves := Shape.nodup_cut (index - left.text.length) rightDistinct
      (fun other member => rightShown.lt_nodeCount member)
    have outside : ∀ other ∈ (right.cut (index - left.text.length) before.nodeCount).nodes,
        other ∉ left.nodes := by
      intro other member inLeft
      rcases Shape.mem_nodes_cut member with inner | new
      · exact apart other inLeft other (Shape.inner_subset_nodes inner) rfl
      · exact absurd (leftShown.lt_nodeCount inLeft) (Nat.not_lt_of_le new.1)
    have leftKept : after.Linked left := leftLinked.congr fun other inner =>
      done.parent other (leftShown.lt_nodeCount (Shape.inner_subset_nodes inner)) fun inRight =>
        apart other (Shape.inner_subset_nodes inner) other (Shape.inner_subset_nodes inRight) rfl
    rcases List.nodup_append.mp halves with ⟨firstDistinct, _, halvesApart⟩
    refine ⟨?_, ?_⟩
    · rw [← done.count]
      refine leftKept.addBranch firstLinked leftStays done.first ?_
      refine List.nodup_append.mpr ⟨leftDistinct, firstDistinct, fun other inLeft another inFirst same => ?_⟩
      exact outside another (List.mem_append_left _ inFirst) (same ▸ inLeft)
    · refine restLinked.addBranch_of_notMem leftStays done.first (fun inner => ?_) fun inner => ?_
      · exact outside _ (List.mem_append_right _ (Shape.inner_subset_nodes inner)) left.root_mem_nodes
      · exact halvesApart _ (Shape.root_mem_nodes _) _ (Shape.inner_subset_nodes inner) rfl
  · intro anchor
    rw [anchor?_addBranch, done.anchor]
    refine congrArg (Option.map · _) (funext fun place => ?_)
    rw [Shape.cutPlace_branch_right inside]
  · rw [nodeCount_addBranch, done.count]

end Joining

theorem splitWithin_spec {shape : Shape} (formed : buffer.WellFormed) (seated : buffer.Seated)
    (shown : buffer.Shows shape) (fuel : Nat) (enough : shape.height < fuel) (index : Nat)
    (within : index ≤ shape.text.length) :
    let halves := shape.cut index buffer.nodeCount
    (buffer.splitWithin fuel shape.root index).1 = (halves.first.root, halves.rest.root) ∧
      buffer.TreeCut (buffer.splitWithin fuel shape.root index).2 shape index halves := by
  induction shape generalizing fuel index with
  | leaf node text =>
      cases fuel with
      | zero => exact absurd enough (Nat.not_lt_zero _)
      | succ fuel =>
          rcases view_eq_leaf_iff.mp shown with ⟨parent, anchors, found⟩
          rcases splitLeaf_spec seated shown index with ⟨roots, done⟩
          have becomes : buffer.splitWithin (fuel + 1) node index = buffer.splitLeaf node index := by
            simp only [splitWithin, found]
          rw [Shape.root_leaf, becomes]
          refine ⟨roots, done.grown, done.wellFormed formed, done.seated, ?_, ?_,
            fun other _ _ => done.parent other, fun _ _ => ⟨trivial, trivial⟩, done.anchor,
            done.count⟩
          · rw [Shape.cut, Shows, done.left, List.extract_toArray, List.extract_eq_take_drop,
              List.drop_zero, Nat.sub_zero]
          · rw [Shape.cut, Shows, done.right, List.extract_toArray, List.extract_eq_take_drop,
              List.size_toArray, List.take_of_length_le (Nat.le_of_eq List.length_drop)]
  | branch node left right leftHypothesis rightHypothesis =>
      cases fuel with
      | zero => exact absurd enough (Nat.not_lt_zero _)
      | succ fuel =>
          have whole := shown
          rcases shown with ⟨found, _, _, _, _, leftShown, rightShown⟩
          rcases view_eq_branch_iff.mp found with ⟨parent, found⟩
          rw [Shape.height] at enough
          rw [Shape.text_branch, List.length_append] at within
          rw [Shape.root_branch]
          rcases Nat.lt_trichotomy index left.text.length with before | rfl | after
          · have below := leftHypothesis leftShown fuel (by omega) index (Nat.le_of_lt before)
            simp only [splitWithin, found, if_pos before]
            generalize buffer.splitWithin fuel left.root index = answer at below ⊢
            rcases answer with ⟨⟨first, rest⟩, cutBuffer⟩
            rcases below with ⟨roots, done⟩
            cases roots
            refine ⟨?_, done.joinRest whole before⟩
            rw [Shape.cut_branch_left before, fst_addBranch, done.count]
            rfl
          · simp only [splitWithin, found, Nat.lt_irrefl, if_false]
            rw [Shape.cut_branch_between]
            refine ⟨rfl, Extends.refl _, formed, seated, leftShown, rightShown, fun _ _ _ => rfl,
              fun linked _ => linked.2.2, fun anchor => ?_, rfl⟩
            have stays : (Shape.branch node left right).cutPlace left.text.length buffer.nodeCount =
                id := funext fun place => Shape.cutPlace_branch_between left right node _ place
            rw [stays, Option.map_id, id]
          · have below := rightHypothesis rightShown fuel (by omega) (index - left.text.length)
              (by omega)
            simp only [splitWithin, found, if_neg (Nat.lt_asymm after), if_pos after]
            generalize buffer.splitWithin fuel right.root (index - left.text.length) = answer
              at below ⊢
            rcases answer with ⟨⟨first, rest⟩, cutBuffer⟩
            rcases below with ⟨roots, done⟩
            cases roots
            refine ⟨?_, done.joinFirst whole after⟩
            rw [Shape.cut_branch_right after, fst_addBranch, done.count]
            rfl

end Buffer

end Reparse
