import Reparse.Proofs.Rope.Revisions
import Reparse.Proofs.Rope.Slots

/-!
# Anchors are rehoused once

The list of a leaf that is cut may name an anchor several times, and it may name anchors that
sit elsewhere or are released.  The lists of the halves are new.  A list is exact if it names
the anchors of its leaf and no others, each of them once.  The list of a new leaf is exact, since
no anchor sits there.  It stays exact while anchors are moved, because an anchor that was moved
does not sit in the old leaf any more, and is passed over when it is named again.

Lists of other leaves and all slots are as they were.  The revision grows by one if an anchor was
moved, and only then.
-/

namespace Reparse

namespace Buffer

variable {buffer : Buffer}

/-! ## Exact lists -/

/-- A list names the anchors of its leaf, and each of them once. -/
structure Exact (buffer : Buffer) (node : NodeId) : Prop where
  distinct : (buffer.listed node).toList.Nodup
  names : ∀ anchor, anchor ∈ buffer.listed node ↔
    (buffer.anchor? anchor).map Place.leaf = some node

/-- An anchor is entered in one list, and the others stay. -/
theorem listed_enter {node : NodeId} {text : Array Char}
    (found : buffer.view node = some (.leaf text none {})) (anchor : AnchorId) (other : NodeId) :
    (buffer.modifyAnchors node (·.push anchor)).listed other =
      if other = node then (buffer.listed other).push anchor else buffer.listed other := by
  split
  · next same =>
      rcases buffer.listed_modifyAnchors_self found with ⟨list, before, after⟩
      rw [same, after, before]
      rfl
  · next different => exact buffer.listed_modifyAnchors_ne different _

/-- An anchor that leaves another leaf may come in, or it may go elsewhere. -/
theorem Exact.move {node : NodeId} (tells : buffer.Exact node) {anchor : AnchorId}
    {old place : Place} (sits : buffer.anchor? anchor = some old) (different : old.leaf ≠ node)
    {text : Array Char} (found : buffer.view place.leaf = some (.leaf text none {})) :
    ((buffer.assign anchor (some place)).modifyAnchors place.leaf (·.push anchor)).Exact node := by
  have outside : anchor ∉ buffer.listed node := by
    rw [tells.names, sits, Option.map_some, Option.some_inj]
    exact different
  have lists : ((buffer.assign anchor (some place)).modifyAnchors place.leaf
      (·.push anchor)).listed node =
      if node = place.leaf then (buffer.listed node).push anchor else buffer.listed node :=
    (buffer.assign anchor (some place)).listed_enter found anchor node
  constructor
  · rw [lists]
    split
    · rw [Array.toList_push, List.nodup_append]
      refine ⟨tells.distinct, List.nodup_cons.mpr ⟨List.not_mem_nil, List.nodup_nil⟩, ?_⟩
      rintro other member _ entered rfl
      rw [List.mem_singleton.mp entered] at member
      exact outside (Array.mem_toList_iff.mp member)
    · exact tells.distinct
  · intro other
    rw [lists, anchor?_modifyAnchors, buffer.anchor?_assign (lt_size_of_anchor? sits)]
    by_cases same : other = anchor
    · rw [if_pos same, Option.map_some, Option.some_inj, same]
      split
      · next into => exact iff_of_true Array.mem_push_self into.symm
      · next elsewhere => exact iff_of_false outside (Ne.symm elsewhere)
    · rw [if_neg same, ← tells.names]
      split
      · rw [Array.mem_push, or_iff_left same]
      · rfl

section Reseating

variable {leaf left : NodeId} {cut : Nat} {leftText rightText : Array Char}

/-- Exact lists stay exact while anchors are moved, other than the list that they leave. -/
theorem Exact.foldl_reseat {node : NodeId} (different : leaf ≠ node) (anchors : List AnchorId)
    (start : Nat × Buffer) (tells : start.2.Exact node)
    (leftFound : start.2.view left = some (.leaf leftText none {}))
    (rightFound : start.2.view (left + 1) = some (.leaf rightText none {})) :
    (anchors.foldl (reseat leaf cut left (left + 1)) start).2.Exact node := by
  induction anchors generalizing start with
  | nil => exact tells
  | cons anchor anchors inductionHypothesis =>
      rcases start with ⟨moved, buffer⟩
      have trees := sameTrees_reseat leaf cut left moved buffer anchor
      refine inductionHypothesis _ ?_ ((trees.view left).trans leftFound)
        ((trees.view (left + 1)).trans rightFound)
      rcases reseat_cases leaf cut left moved buffer anchor with
        ⟨stays, _⟩ | ⟨place, sits, here, moves⟩
      · rw [stays]
        exact tells
      · rw [moves]
        rcases view_leaf_afterCut leftFound rightFound here with ⟨text, found⟩
        exact tells.move sits (fun same => different (here ▸ same)) found

/-- Lists other than those of the halves are left alone. -/
theorem listed_foldl_reseat {node : NodeId} (notLeft : node ≠ left) (notRight : node ≠ left + 1)
    (anchors : List AnchorId) (start : Nat × Buffer) :
    (anchors.foldl (reseat leaf cut left (left + 1)) start).2.listed node =
      start.2.listed node := by
  induction anchors generalizing start with
  | nil => rfl
  | cons anchor anchors inductionHypothesis =>
      rcases start with ⟨moved, buffer⟩
      rw [List.foldl_cons, inductionHypothesis]
      rcases reseat_cases leaf cut left moved buffer anchor with ⟨stays, _⟩ | ⟨place, _, here, moves⟩
      · rw [stays]
      · rw [moves]
        refine listed_modifyAnchors_ne _ ?_ _
        rcases Place.leaf_afterCut here cut left with isLeft | isRight
        · rw [isLeft]
          exact notLeft
        · rw [isRight]
          exact notRight

/-- Anchors that sit elsewhere are all passed over. -/
theorem foldl_reseat_of_elsewhere (anchors : List AnchorId) (moved : Nat)
    (elsewhere : ∀ anchor place, buffer.anchor? anchor = some place → place.leaf ≠ leaf) :
    anchors.foldl (reseat leaf cut left (left + 1)) (moved, buffer) = (moved, buffer) := by
  induction anchors with
  | nil => rfl
  | cons anchor anchors inductionHypothesis =>
      rw [List.foldl_cons]
      rcases reseat_cases leaf cut left moved buffer anchor with ⟨stays, _⟩ | ⟨place, sits, here, _⟩
      · rw [stays]
        exact inductionHypothesis
      · exact absurd here (elsewhere anchor place sits)

end Reseating

/-! ## Cutting a leaf -/

section Rehousing

variable {leaf : NodeId} {text : Array Char}

theorem listed_halve_self (found : buffer.view leaf = some (.leaf text none {})) (cut : Nat) :
    (buffer.halve leaf text cut).listed leaf = #[] := by
  rcases buffer.listed_modifyAnchors_self found with ⟨list, _, after⟩
  rw [halve, listed_addLeaf, listed_addLeaf, after]

/-- No anchor sits in a node that is to be made. -/
theorem exact_halve (seated : buffer.Seated) (found : buffer.view leaf = some (.leaf text none {}))
    (cut : Nat) {half : NodeId} (new : buffer.nodeCount ≤ half) :
    (buffer.halve leaf text cut).Exact half := by
  have old := Nat.lt_of_lt_of_le (lt_nodeCount_of_view found) new
  have empty : (buffer.halve leaf text cut).listed half = #[] := by
    rw [listed_halve_ne _ _ _ (Nat.ne_of_lt old).symm, listed, Array.getElem?_eq_none new]
    rfl
  refine ⟨by rw [empty]; exact List.nodup_nil, fun anchor => ?_⟩
  rw [empty]
  refine iff_of_false (Array.not_mem_empty anchor) fun sitsThere => ?_
  rcases Option.map_eq_some_iff.mp sitsThere with ⟨place, sits, rfl⟩
  rcases seated.placed anchor place sits with ⟨ownText, ownFound, _⟩
  exact Nat.not_lt_of_le new (lt_nodeCount_of_view ownFound)

theorem exact_rehouse (seated : buffer.Seated)
    (found : buffer.view leaf = some (.leaf text none {})) (cut : Nat) {half : NodeId}
    (new : buffer.nodeCount ≤ half) : (buffer.rehouse leaf text cut).2.Exact half := by
  have old := Nat.lt_of_lt_of_le (lt_nodeCount_of_view found) new
  exact Exact.foldl_reseat (Nat.ne_of_lt old) _ _ (exact_halve seated found cut new)
    (buffer.view_halve_left leaf text cut) (buffer.view_halve_right leaf text cut)

theorem listed_rehouse (leaf : NodeId) (text : Array Char) (cut : Nat) {node : NodeId}
    (old : node < buffer.nodeCount) :
    (buffer.rehouse leaf text cut).2.listed node = (buffer.halve leaf text cut).listed node :=
  listed_foldl_reseat (Nat.ne_of_lt old) (Nat.ne_of_lt (Nat.lt_succ_of_lt old)) _ _

/-- Some anchor sits in a leaf. -/
def Houses (buffer : Buffer) (leaf : NodeId) : Prop :=
  ∃ anchor place, buffer.anchor? anchor = some place ∧ place.leaf = leaf

/-- The number of anchors that are moved is zero exactly if there are none to move. -/
theorem rehouse_eq_zero_iff (seated : buffer.Seated)
    (found : buffer.view leaf = some (.leaf text none {})) (cut : Nat) :
    (buffer.rehouse leaf text cut).1 = 0 ↔ ¬ buffer.Houses leaf := by
  constructor
  · rintro none ⟨anchor, place, sits, here⟩
    -- Without a move the anchor would still sit in the leaf, and it sits in one of the halves.
    have still := (foldl_reseat_counts leaf cut buffer.nodeCount (buffer.listed leaf).toList
      (0, buffer.halve leaf text cut)).2.2 none
    have stays : (buffer.splitLeaf leaf cut).2.anchor? anchor = some place := by
      rw [buffer.splitLeaf_eq found cut, ← sits]
      exact congrArg (fun anchors : Array (Option Place) => anchors[anchor]?.join) still
    rw [(buffer.splitLeaf_spec seated found cut).2.anchor, sits, Option.map_some,
      Option.some_inj] at stays
    have old := lt_nodeCount_of_view found
    rcases Place.leaf_afterCut here cut buffer.nodeCount with isLeft | isRight
    · rw [stays, here] at isLeft
      exact Nat.ne_of_lt old isLeft
    · rw [stays, here] at isRight
      exact Nat.ne_of_lt (Nat.lt_succ_of_lt old) isRight
  · intro empty
    have elsewhere : ∀ anchor place, (buffer.halve leaf text cut).anchor? anchor = some place →
        place.leaf ≠ leaf := fun anchor place sits here => empty ⟨anchor, place, sits, here⟩
    rw [rehouse, foldl_reseat_of_elsewhere _ _ elsewhere]

/-- The anchors of a leaf are moved to its halves, which are the two nodes that are made. -/
structure Rehouses (before after : Buffer) (leaf : NodeId) (cut : Nat) : Prop where
  anchor : ∀ anchor, after.anchor? anchor =
    (before.anchor? anchor).map (Place.afterCut leaf cut before.nodeCount)
  left : after.Exact before.nodeCount
  right : after.Exact (before.nodeCount + 1)
  emptied : after.listed leaf = #[]
  others : ∀ node, node ≠ leaf → node < before.nodeCount → after.listed node = before.listed node
  slots : before.SameSlots after
  moved : before.Houses leaf → after.revision = before.revision + 1
  still : ¬ before.Houses leaf → after.revision = before.revision

theorem rehouses_splitLeaf (seated : buffer.Seated)
    (found : buffer.view leaf = some (.leaf text none {})) (cut : Nat) :
    buffer.Rehouses (buffer.splitLeaf leaf cut).2 leaf cut := by
  have done := (buffer.splitLeaf_spec seated found cut).2
  have slots := buffer.sameSlots_splitLeaf leaf cut
  have left := exact_rehouse seated found cut (Nat.le_refl _)
  have right := exact_rehouse seated found cut (Nat.le_succ _)
  have counts := rehouse_eq_zero_iff seated found cut
  have revision : (buffer.rehouse leaf text cut).2.revision = buffer.revision :=
    (foldl_reseat_counts leaf cut _ _ _).1
  rw [buffer.splitLeaf_eq found cut] at done slots ⊢
  refine ⟨done.anchor, ⟨left.distinct, left.names⟩, ⟨right.distinct, right.names⟩, ?_, ?_, slots,
    ?_, ?_⟩
  · exact (listed_rehouse leaf text cut (lt_nodeCount_of_view found)).trans
      (listed_halve_self found cut)
  · intro node different old
    exact (listed_rehouse leaf text cut old).trans (buffer.listed_halve_ne text cut different)
  · intro houses
    simp only [if_neg fun none => counts.mp none houses, revision]
  · intro empty
    simp only [if_pos (counts.mpr empty), revision]

end Rehousing

end Buffer

end Reparse
