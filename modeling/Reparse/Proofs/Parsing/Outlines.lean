import Mathlib.Data.List.Forall2
import Reparse.Parsing.Tree

namespace Reparse

/-!
# Outlines of trees

The outline of a tree keeps the labels and the lengths of its nodes.  Two trees
are alike exactly if they have the same outline.  What a rule finds in a text can
so be said without the cursors, numbers and skip values that a parser gives to
its nodes.

Two outlines may have the same form and differ in some of their labels only.  How far
they may differ is told by a relation of labels.
-/

/-- What counts when trees are compared. -/
structure Outline (α : Type) where
  label : α
  length : Nat
  children : List (Outline α)

namespace Outline

variable {α : Type}

/-- Outlines of the same form, whose labels are related node by node. -/
inductive Related (labels : α → α → Prop) : Outline α → Outline α → Prop where
  | node {label label' : α} {length : Nat} {children children' : List (Outline α)}
      (same : labels label label') (below : List.Forall₂ (Related labels) children children') :
      Related labels ⟨label, length, children⟩ ⟨label', length, children'⟩

namespace Related

variable {labels : α → α → Prop} {outline outline' : Outline α}

theorem label (related : Related labels outline outline') : labels outline.label outline'.label := by
  cases related with
  | node same below => exact same

theorem length (related : Related labels outline outline') : outline.length = outline'.length := by
  cases related with
  | node same below => rfl

theorem children (related : Related labels outline outline') :
    List.Forall₂ (Related labels) outline.children outline'.children := by
  cases related with
  | node same below => exact below

end Related

mutual

theorem eq_of_related : ∀ {outline outline' : Outline α}, Related Eq outline outline' →
    outline = outline'
  | ⟨label, length, children⟩, _, .node same below => by rw [same, eq_of_forall₂_related below]

theorem eq_of_forall₂_related : ∀ {outlines outlines' : List (Outline α)},
    List.Forall₂ (Related Eq) outlines outlines' → outlines = outlines'
  | [], _, .nil => rfl
  | outline :: outlines, _, .cons first rest => by
      rw [eq_of_related first, eq_of_forall₂_related rest]

end

end Outline

namespace Tree

variable {α κ : Type}

mutual

def outline : Tree α κ → Outline α
  | .node label children origin => ⟨label, origin.length, outlines children⟩

def outlines : List (Tree α κ) → List (Outline α)
  | [] => []
  | tree :: trees => outline tree :: outlines trees

end

theorem outline_eq (tree : Tree α κ) :
    tree.outline = ⟨tree.label, tree.length, outlines tree.children⟩ := by
  cases tree
  rfl

@[simp] theorem outline_label (tree : Tree α κ) : tree.outline.label = tree.label := by
  rw [outline_eq]

@[simp] theorem outline_length (tree : Tree α κ) : tree.outline.length = tree.length := by
  rw [outline_eq]

@[simp] theorem outline_children (tree : Tree α κ) :
    tree.outline.children = outlines tree.children := by
  rw [outline_eq]

theorem outlines_eq_map (trees : List (Tree α κ)) : outlines trees = trees.map outline := by
  induction trees with
  | nil => rfl
  | cons tree trees inductionHypothesis => rw [outlines, List.map_cons, inductionHypothesis]

theorem outlines_append (trees trees' : List (Tree α κ)) :
    outlines (trees ++ trees') = outlines trees ++ outlines trees' := by
  rw [outlines_eq_map, outlines_eq_map, outlines_eq_map, List.map_append]

variable [DecidableEq α]

mutual

theorem alike_iff_outline : ∀ tree tree' : Tree α κ,
    tree.alike tree' = true ↔ tree.outline = tree'.outline
  | .node label children origin, .node label' children' origin' => by
      rw [alike, outline, outline, Bool.and_eq_true, Bool.and_eq_true, decide_eq_true_iff,
        decide_eq_true_iff, alikeAll_iff_outlines children children', Outline.mk.injEq, and_assoc]

theorem alikeAll_iff_outlines : ∀ trees trees' : List (Tree α κ),
    alikeAll trees trees' = true ↔ outlines trees = outlines trees'
  | [], [] => by simp [alikeAll, outlines]
  | [], _ :: _ => by simp [alikeAll, outlines]
  | _ :: _, [] => by simp [alikeAll, outlines]
  | tree :: trees, tree' :: trees' => by
      rw [alikeAll, outlines, outlines, Bool.and_eq_true, alike_iff_outline tree tree',
        alikeAll_iff_outlines trees trees', List.cons.injEq]

end

end Tree

end Reparse
