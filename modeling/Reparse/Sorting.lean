/-!
# Sorting by insertion

The lists that are sorted here are short or already nearly in order, and
insertion from the right takes one step for each element that stands in its
place.  Elements that the order does not tell apart keep their order.
-/

namespace Reparse

variable {α : Type}

/-- Put an element in front of the first one that does not come before it. -/
def insertBy (le : α → α → Bool) (element : α) : List α → List α
  | [] => [element]
  | head :: tail =>
    if le element head then element :: head :: tail else head :: insertBy le element tail

def sortBy (le : α → α → Bool) (elements : List α) : List α :=
  elements.foldr (insertBy le) []

/-- Sorting neither loses nor repeats an element. -/
theorem insertBy_perm (le : α → α → Bool) (element : α) (elements : List α) :
    (insertBy le element elements).Perm (element :: elements) := by
  induction elements with
  | nil => exact List.Perm.refl _
  | cons head tail inductionHypothesis =>
    unfold insertBy
    split
    · exact List.Perm.refl _
    · exact (inductionHypothesis.cons head).trans (List.Perm.swap element head tail)

theorem sortBy_perm (le : α → α → Bool) (elements : List α) :
    (sortBy le elements).Perm elements := by
  induction elements with
  | nil => exact List.Perm.refl _
  | cons head tail inductionHypothesis =>
    exact (insertBy_perm le head (sortBy le tail)).trans (inductionHypothesis.cons head)

/-- Sorting puts the elements in order, if any two of them can be compared. -/
theorem insertBy_sorted {le : α → α → Bool}
    (total : ∀ first second, le first second = true ∨ le second first = true)
    (trans : ∀ first second third, le first second = true → le second third = true →
      le first third = true) (element : α) {elements : List α}
    (sorted : elements.Pairwise fun first second => le first second = true) :
    (insertBy le element elements).Pairwise fun first second => le first second = true := by
  induction elements with
  | nil => exact List.pairwise_singleton _ _
  | cons head tail inductionHypothesis =>
    rcases List.pairwise_cons.mp sorted with ⟨least, rest⟩
    unfold insertBy
    split
    · next before =>
      refine List.pairwise_cons.mpr ⟨fun other member => ?_, sorted⟩
      rcases List.mem_cons.mp member with rfl | later
      · exact before
      · exact trans element head other before (least other later)
    · next behind =>
      refine List.pairwise_cons.mpr ⟨fun other member => ?_, inductionHypothesis rest⟩
      rcases List.mem_cons.mp ((insertBy_perm le element tail).mem_iff.mp member) with rfl | later
      · exact (total head other).resolve_right behind
      · exact least other later

theorem sortBy_sorted {le : α → α → Bool}
    (total : ∀ first second, le first second = true ∨ le second first = true)
    (trans : ∀ first second third, le first second = true → le second third = true →
      le first third = true) (elements : List α) :
    (sortBy le elements).Pairwise fun first second => le first second = true := by
  induction elements with
  | nil => exact List.Pairwise.nil
  | cons head tail inductionHypothesis => exact insertBy_sorted total trans head inductionHypothesis

end Reparse
