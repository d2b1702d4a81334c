import Reparse.Edit.Log
import Reparse.Rope.Cursor

/-!
# Parse trees

A node of a parse tree has a label of its grammar and any number of children.
It also knows where it came from: two cursors at its ends, its length when it
was made, the skip values on both sides, and the number it was given in its
parser.  The cursors follow the text through edits, so the span of a node can
be asked for at any later time.

Two trees are alike when their labels and lengths agree all the way down.
Numbers, cursors and skip values do not count.  They do count when it is asked
whether two nodes are equal.  A parser gives no number twice, so nodes that it
has made are equal only if they are one and the same node.
-/

namespace Reparse

/-- Where a node came from.  `start` is where its rule was invoked, in front of
any skip values, and `stop` lies past the skip values behind it. -/
structure Origin (κ : Type) where
  start : Cursor
  stop : Cursor
  length : Nat
  id : Nat
  before : List κ
  after : List κ
deriving DecidableEq, Repr

/-- A parse tree with labels from `α` and skip values from `κ`. -/
inductive Tree (α κ : Type) where
  | node (label : α) (children : List (Tree α κ)) (origin : Origin κ)

/-- What a rule makes: a node that has not been placed in the text yet. -/
structure Content (α κ : Type) where
  label : α
  children : List (Tree α κ) := []

namespace Tree

variable {α κ : Type}

def label : Tree α κ → α
  | .node label _ _ => label

def children : Tree α κ → List (Tree α κ)
  | .node _ children _ => children

def origin : Tree α κ → Origin κ
  | .node _ _ origin => origin

def start (tree : Tree α κ) : Cursor := tree.origin.start

def stop (tree : Tree α κ) : Cursor := tree.origin.stop

def length (tree : Tree α κ) : Nat := tree.origin.length

def id (tree : Tree α κ) : Nat := tree.origin.id

def content (tree : Tree α κ) : Content α κ := ⟨tree.label, tree.children⟩

/-- The current span of a node. -/
def range (tree : Tree α κ) (store : Store) : Range :=
  ⟨store.index tree.start, store.index tree.stop⟩

mutual

/-- Labels and lengths agree in the whole tree. -/
def alike [DecidableEq α] : Tree α κ → Tree α κ → Bool
  | .node label children origin, .node label' children' origin' =>
    decide (label = label') && decide (origin.length = origin'.length) &&
      alikeAll children children'

def alikeAll [DecidableEq α] : List (Tree α κ) → List (Tree α κ) → Bool
  | [], [] => true
  | tree :: trees, tree' :: trees' => alike tree tree' && alikeAll trees trees'
  | _, _ => false

end

mutual

/-- Everything agrees in the whole tree, the numbers, the cursors and the skip values included. -/
def same [DecidableEq α] [DecidableEq κ] : Tree α κ → Tree α κ → Bool
  | .node label children origin, .node label' children' origin' =>
    decide (origin = origin') && decide (label = label') && sameAll children children'

def sameAll [DecidableEq α] [DecidableEq κ] : List (Tree α κ) → List (Tree α κ) → Bool
  | [], [] => true
  | tree :: trees, tree' :: trees' => same tree tree' && sameAll trees trees'
  | _, _ => false

end

mutual

theorem same_iff_eq [DecidableEq α] [DecidableEq κ] :
    ∀ {tree tree' : Tree α κ}, tree.same tree' = true ↔ tree = tree'
  | .node label children origin, .node label' children' origin' => by
      rw [same, Bool.and_eq_true, Bool.and_eq_true, decide_eq_true_iff, decide_eq_true_iff,
        sameAll_iff_eq, node.injEq, and_assoc, and_comm, and_assoc]

theorem sameAll_iff_eq [DecidableEq α] [DecidableEq κ] :
    ∀ {trees trees' : List (Tree α κ)}, sameAll trees trees' = true ↔ trees = trees'
  | [], [] => by simp [sameAll]
  | [], _ :: _ => by simp [sameAll]
  | _ :: _, [] => by simp [sameAll]
  | tree :: trees, tree' :: trees' => by
      rw [sameAll, Bool.and_eq_true, same_iff_eq, sameAll_iff_eq, List.cons.injEq]

end

instance [DecidableEq α] [DecidableEq κ] : DecidableEq (Tree α κ) :=
  fun _ _ => decidable_of_iff _ same_iff_eq

mutual

/-- The nodes of a tree with their depths, each in front of its children. -/
def preorder (depth : Nat) (tree : Tree α κ) : List (Nat × Tree α κ) :=
  match tree with
  | .node label children origin =>
    (depth, .node label children origin) :: preorderAll (depth + 1) children

def preorderAll (depth : Nat) : List (Tree α κ) → List (Nat × Tree α κ)
  | [] => []
  | tree :: trees => preorder depth tree ++ preorderAll depth trees

end

end Tree

end Reparse
