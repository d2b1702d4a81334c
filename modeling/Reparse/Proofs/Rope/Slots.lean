import Mathlib.Data.List.Basic
import Reparse.Proofs.Rope.Steps

/-!
# Slots in use and slots that wait

A slot of the table is in use, or it was released and waits to be used again.  No slot is
forgotten.  Edits leave the table as it is, up to the places that it holds.  A new anchor takes
the slot that was released last, or a slot of its own where none waits.

So the slots that wait are exactly those that are not in use, and the number of anchors in use
is the length of any list that names each of them once.
-/

namespace Reparse

namespace Buffer

variable {buffer : Buffer}

/-! ## Operations that keep all slots -/

/-- The same slots are in use, and the same slots wait. -/
structure SameSlots (before after : Buffer) : Prop where
  free : after.free = before.free
  size : after.anchors.size = before.anchors.size
  used : ∀ anchor, (after.anchor? anchor).isSome = (before.anchor? anchor).isSome

theorem SameSlots.of_eq {before after : Buffer} (anchors : after.anchors = before.anchors)
    (free : after.free = before.free) : before.SameSlots after :=
  ⟨free, congrArg Array.size anchors, fun anchor => by rw [anchor?, anchors, ← anchor?]⟩

theorem SameSlots.refl (buffer : Buffer) : buffer.SameSlots buffer := .of_eq rfl rfl

theorem SameSlots.trans {first second third : Buffer} (one : first.SameSlots second)
    (two : second.SameSlots third) : first.SameSlots third :=
  ⟨two.free.trans one.free, two.size.trans one.size,
    fun anchor => (two.used anchor).trans (one.used anchor)⟩

theorem sameSlots_modifyAnchors (leaf : NodeId) (change : AnchorList → AnchorList) :
    buffer.SameSlots (buffer.modifyAnchors leaf change) :=
  .of_eq rfl rfl

/-- A slot in use is given another place. -/
theorem sameSlots_assign {anchor : AnchorId} {old : Place} (sits : buffer.anchor? anchor = some old)
    (place : Place) : buffer.SameSlots (buffer.assign anchor (some place)) := by
  refine ⟨rfl, Array.size_setIfInBounds, fun other => ?_⟩
  rw [buffer.anchor?_assign (lt_size_of_anchor? sits)]
  split
  · next same => rw [same, sits, Option.isSome_some, Option.isSome_some]
  · rfl

theorem sameSlots_moveAnchor {anchor : AnchorId} {old : Place}
    (sits : buffer.anchor? anchor = some old) (place : Place) :
    buffer.SameSlots (buffer.moveAnchor anchor place) := by
  have assigned := sameSlots_assign sits place
  rw [moveAnchor]
  split
  · exact assigned
  · exact assigned.trans (sameSlots_modifyAnchors _ _)

theorem sameSlots_foldl_reseat (leaf : NodeId) (cut : Nat) (left : NodeId)
    (anchors : List AnchorId) (start : Nat × Buffer) :
    start.2.SameSlots (anchors.foldl (reseat leaf cut left (left + 1)) start).2 := by
  induction anchors generalizing start with
  | nil => exact .refl start.2
  | cons anchor anchors inductionHypothesis =>
      rcases start with ⟨moved, buffer⟩
      have rest := inductionHypothesis (reseat leaf cut left (left + 1) (moved, buffer) anchor)
      rw [List.foldl_cons]
      rcases reseat_cases leaf cut left moved buffer anchor with
        ⟨stays, _⟩ | ⟨place, sits, _, moves⟩
      · rw [stays] at rest ⊢
        exact rest
      · rw [moves] at rest ⊢
        exact ((sameSlots_assign sits _).trans (sameSlots_modifyAnchors _ _)).trans rest

theorem sameSlots_splitLeaf (buffer : Buffer) (leaf : NodeId) (cut : Nat) :
    buffer.SameSlots (buffer.splitLeaf leaf cut).2 := by
  rcases buffer.splitLeaf_cases leaf with ⟨text, found⟩ | stays
  · rw [buffer.splitLeaf_eq found cut]
    have halved : buffer.SameSlots (buffer.halve leaf text cut) := .of_eq rfl rfl
    exact (halved.trans (sameSlots_foldl_reseat _ _ _ _ (0, _))).trans (.of_eq rfl rfl)
  · rw [stays]
    exact .refl buffer

theorem Steps.sameSlots {after : Buffer} (steps : buffer.Steps after) : buffer.SameSlots after := by
  induction steps with
  | none => exact .refl buffer
  | addLeaf _ text inductionHypothesis => exact inductionHypothesis.trans (.of_eq rfl rfl)
  | setParent _ node parent inductionHypothesis => exact inductionHypothesis.trans (.of_eq rfl rfl)
  | addBranch _ left right inductionHypothesis => exact inductionHypothesis.trans (.of_eq rfl rfl)
  | splitLeaf _ leaf cut inductionHypothesis =>
      exact inductionHypothesis.trans (sameSlots_splitLeaf _ leaf cut)

/-! ## Slots that wait -/

/-- Every slot that is not in use waits to be used again. -/
def Recycled (buffer : Buffer) : Prop :=
  ∀ anchor < buffer.anchors.size, buffer.anchor? anchor = none → anchor ∈ buffer.free

theorem Recycled.empty : Recycled {} := fun anchor within => absurd within (Nat.not_lt_zero anchor)

theorem Recycled.sameSlots {after : Buffer} (recycled : buffer.Recycled)
    (same : buffer.SameSlots after) : after.Recycled := by
  intro anchor within unused
  rw [same.free]
  refine recycled anchor (same.size ▸ within) ?_
  rw [← Option.not_isSome_iff_eq_none, ← same.used, unused]
  exact Bool.false_ne_true

theorem Recycled.addAnchor (recycled : buffer.Recycled) (seated : buffer.Seated) (place : Place) :
    (buffer.addAnchor place).2.Recycled := by
  intro anchor within unused
  rw [(anchor?_addAnchor seated place).2] at unused
  split at unused
  · cases unused
  · next different =>
      revert within different
      rw [Buffer.addAnchor]
      cases waiting : buffer.free with
      | cons next free =>
          intro within different
          have known := recycled anchor (Nat.lt_of_lt_of_eq within Array.size_setIfInBounds) unused
          rw [waiting] at known
          exact (List.mem_cons.mp known).resolve_left different
      | nil =>
          intro within different
          have known := recycled anchor (Nat.lt_of_le_of_ne (Nat.le_of_lt_succ
            (Nat.lt_of_lt_of_eq within (Array.size_push _))) different) unused
          rw [waiting] at known
          cases known

theorem Recycled.releaseAnchor (recycled : buffer.Recycled) (released : AnchorId) :
    (buffer.releaseAnchor released).Recycled := by
  have after := buffer.anchor?_releaseAnchor released
  intro anchor
  rw [after anchor, Buffer.releaseAnchor]
  cases sits : buffer.anchor? released with
  | none =>
      intro within unused
      refine recycled anchor within ?_
      split at unused
      · next same => rw [same, sits]
      · exact unused
  | some place =>
      intro within unused
      split at unused
      · next same => exact same ▸ List.mem_cons_self
      · exact List.mem_cons_of_mem _
          (recycled anchor (Array.size_setIfInBounds ▸ within) unused)

/-- The slots that wait are those that are not in use. -/
theorem Recycled.mem_free_iff (recycled : buffer.Recycled) (seated : buffer.Seated)
    {anchor : AnchorId} :
    anchor ∈ buffer.free ↔ anchor < buffer.anchors.size ∧ buffer.anchor? anchor = none :=
  ⟨seated.vacant anchor, fun unused => recycled anchor unused.1 unused.2⟩

/-! ## Counting -/

/-- A list that names every slot in use once has as many entries as there are anchors. -/
theorem liveAnchors_eq_length {handles : List AnchorId} (distinct : handles.Nodup)
    (used : ∀ anchor, anchor ∈ handles ↔ (buffer.anchor? anchor).isSome) :
    buffer.liveAnchors = handles.length := by
  have same : handles.Perm (buffer.anchors.toList.findIdxs Option.isSome) := by
    refine (List.perm_ext_iff_of_nodup distinct List.nodup_findIdxs).mpr fun anchor => ?_
    rw [used, List.mem_findIdxs_iff_exists_getElem_pos, anchor?]
    simp only [Array.getElem_toList, Array.length_toList]
    rcases Nat.lt_or_ge anchor buffer.anchors.size with within | beyond
    · rw [Array.getElem?_eq_getElem within, Option.join_some]
      refine ⟨fun inUse => ⟨within, inUse⟩, ?_⟩
      rintro ⟨_, inUse⟩
      exact inUse
    · rw [Array.getElem?_eq_none beyond]
      refine iff_of_false Bool.false_ne_true ?_
      rintro ⟨within, _⟩
      exact Nat.not_lt_of_le beyond within
  rw [same.length_eq, List.length_findIdxs, liveAnchors, Array.countP_toList]

end Buffer

namespace Store

variable {store : Store}

/-- In every buffer the same slots are in use, and the same slots wait. -/
def SameSlots (before after : Store) : Prop :=
  ∀ id, (before.buffer id).SameSlots (after.buffer id)

theorem SameSlots.refl (store : Store) : store.SameSlots store := fun _ => .refl _

theorem Steps.sameSlots {after : Store} (steps : store.Steps after) : store.SameSlots after :=
  fun id => (steps id).sameSlots

theorem sameSlots_put {id : BufferId} {content : Buffer}
    (same : (store.buffer id).SameSlots content) : store.SameSlots (store.put id content) :=
  forall_buffer_put (motive := fun other buffer => (store.buffer other).SameSlots buffer) same
    (SameSlots.refl store)

theorem sameSlots_seat {cursor : Cursor} {old : Place} (sits : store.place? cursor = some old)
    (place : Place) : store.SameSlots (store.seat cursor place) := by
  simp only [seat, update_eq]
  exact sameSlots_put (Buffer.sameSlots_moveAnchor sits place)

end Store

end Reparse
