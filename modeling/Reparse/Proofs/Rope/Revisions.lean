import Reparse.Parsing.Reference
import Reparse.Proofs.Rope.Steps
import Reparse.Proofs.Rope.Tracking

namespace Reparse

/-!
# Revisions of a buffer

The revision of a buffer counts the cuts of leaves that moved an anchor.  No other operation
on trees touches an anchor, and so all anchors are where they were for as long as the revision
is the same.  A table of places can be trusted while the revision is the one that it was made
under, since a revision never comes back.
-/

namespace Buffer

variable {buffer : Buffer}

/-- The revision grows, or no anchor moves. -/
structure Advances (before after : Buffer) : Prop where
  le : before.revision ≤ after.revision
  still : after.revision = before.revision → after.anchors = before.anchors

theorem Advances.of_eq {before after : Buffer} (revision : after.revision = before.revision)
    (anchors : after.anchors = before.anchors) : before.Advances after :=
  ⟨Nat.le_of_eq revision.symm, fun _ => anchors⟩

theorem Advances.refl (buffer : Buffer) : buffer.Advances buffer := .of_eq rfl rfl

theorem Advances.trans {first second third : Buffer} (one : first.Advances second)
    (two : second.Advances third) : first.Advances third := by
  refine ⟨Nat.le_trans one.le two.le, fun same => ?_⟩
  have middle : second.revision = first.revision :=
    Nat.le_antisymm (same ▸ two.le) one.le
  rw [two.still (same.trans middle.symm), one.still middle]

/-- Anchors that do not move have the places that they had. -/
theorem Advances.anchor? {before after : Buffer} (advances : before.Advances after)
    (same : after.revision = before.revision) (anchor : AnchorId) :
    after.anchor? anchor = before.anchor? anchor := by
  rw [Buffer.anchor?, advances.still same, ← Buffer.anchor?]

/-! ## Cutting a leaf -/

/-- Anchors are counted as they are moved. -/
theorem foldl_reseat_counts (leaf : NodeId) (cut : Nat) (left : NodeId) (anchors : List AnchorId)
    (start : Nat × Buffer) :
    let after := anchors.foldl (reseat leaf cut left (left + 1)) start
    after.2.revision = start.2.revision ∧ start.1 ≤ after.1 ∧
      (after.1 = start.1 → after.2.anchors = start.2.anchors) := by
  induction anchors generalizing start with
  | nil => exact ⟨rfl, Nat.le_refl _, fun _ => rfl⟩
  | cons anchor anchors inductionHypothesis =>
      rcases start with ⟨moved, buffer⟩
      have rest := inductionHypothesis (reseat leaf cut left (left + 1) (moved, buffer) anchor)
      rw [List.foldl_cons]
      rcases reseat_cases leaf cut left moved buffer anchor with ⟨stays, _⟩ | ⟨place, _, _, moves⟩
      · rw [stays] at rest ⊢
        exact rest
      · rw [moves] at rest ⊢
        rcases rest with ⟨revision, counted, _⟩
        refine ⟨revision, Nat.le_of_succ_le counted, fun same => ?_⟩
        rw [same] at counted
        exact absurd counted (Nat.not_succ_le_self moved)

theorem advances_splitLeaf (buffer : Buffer) (leaf : NodeId) (cut : Nat) :
    buffer.Advances (buffer.splitLeaf leaf cut).2 := by
  rcases buffer.splitLeaf_cases leaf with ⟨text, found⟩ | stays
  · rcases foldl_reseat_counts leaf cut buffer.nodeCount (buffer.listed leaf).toList
      (0, buffer.halve leaf text cut) with ⟨revision, _, still⟩
    rw [← rehouse] at revision still
    rw [buffer.splitLeaf_eq found cut]
    generalize buffer.rehouse leaf text cut = folded at revision still ⊢
    have sameRevision : folded.2.revision = buffer.revision := revision
    by_cases none : folded.1 = 0
    · simp only [if_pos none]
      exact .of_eq sameRevision (still none)
    · simp only [if_neg none]
      refine ⟨?_, fun same => ?_⟩
      · simp only
        omega
      · simp only at same
        omega
  · rw [stays]
    exact .refl buffer

/-! ## Edits -/

/-- Only a cut of a leaf can move an anchor. -/
theorem Steps.advances {after : Buffer} (steps : buffer.Steps after) : buffer.Advances after := by
  induction steps with
  | none => exact .refl buffer
  | addLeaf _ text inductionHypothesis => exact inductionHypothesis.trans (.of_eq rfl rfl)
  | setParent _ node parent inductionHypothesis => exact inductionHypothesis.trans (.of_eq rfl rfl)
  | addBranch _ left right inductionHypothesis => exact inductionHypothesis.trans (.of_eq rfl rfl)
  | splitLeaf _ leaf cut inductionHypothesis =>
      exact inductionHypothesis.trans (advances_splitLeaf _ leaf cut)

/-! ## Anchors that come and go -/

theorem revision_addAnchor (buffer : Buffer) (place : Place) :
    (buffer.addAnchor place).2.revision = buffer.revision := by
  rw [addAnchor]
  split <;> rfl

theorem revision_moveAnchor (buffer : Buffer) (anchor : AnchorId) (place : Place) :
    (buffer.moveAnchor anchor place).revision = buffer.revision := by
  simp only [moveAnchor]
  split <;> rfl

theorem revision_releaseAnchor (buffer : Buffer) (anchor : AnchorId) :
    (buffer.releaseAnchor anchor).revision = buffer.revision := by
  rw [releaseAnchor]
  split <;> rfl

end Buffer

namespace Store

variable {store : Store}

/-- The revisions of all buffers are the same. -/
def SameRevisions (before after : Store) : Prop :=
  ∀ id, (after.buffer id).revision = (before.buffer id).revision

theorem SameRevisions.put {id : BufferId} {content : Buffer}
    (same : content.revision = (store.buffer id).revision) :
    store.SameRevisions (store.put id content) :=
  forall_buffer_put
    (motive := fun other buffer => buffer.revision = (store.buffer other).revision) same
    (fun _ => rfl)

theorem sameRevisions_cursorAt (store : Store) (position : Position) :
    store.SameRevisions (store.cursorAt position).2 := by
  simp only [cursorAt, update_eq]
  exact .put (Buffer.revision_addAnchor _ _)

theorem sameRevisions_seat (store : Store) (cursor : Cursor) (place : Place) :
    store.SameRevisions (store.seat cursor place) := by
  simp only [seat, update_eq]
  exact .put (Buffer.revision_moveAnchor _ _ _)

theorem sameRevisions_release (store : Store) (cursor : Cursor) :
    store.SameRevisions (store.release cursor) := by
  simp only [release, update_eq]
  exact .put (Buffer.revision_releaseAnchor _ _)

theorem sameRevisions_newBuffer (store : Store) : store.SameRevisions store.newBuffer.2 := by
  intro id
  rw [store.buffer_newBuffer]

theorem sameRevisions_rope (store : Store) (id : BufferId) (text : String) :
    store.SameRevisions (store.rope id text).2 := by
  simp only [rope, update_eq]
  exact .put rfl

theorem sameRevisions_releaseExcept (store : Store) (wanted : Cursor → Bool) (id : BufferId) :
    store.SameRevisions (store.releaseExcept wanted id) := by
  have folded : ∀ (anchors : List AnchorId) (buffer : Buffer), (anchors.foldl
      (fun buffer anchor => if wanted ⟨id, anchor⟩ then buffer else buffer.releaseAnchor anchor)
      buffer).revision = buffer.revision := by
    intro anchors
    induction anchors with
    | nil => exact fun _ => rfl
    | cons anchor anchors inductionHypothesis =>
        intro buffer
        rw [List.foldl_cons, inductionHypothesis]
        split
        · rfl
        · exact buffer.revision_releaseAnchor anchor
  rw [releaseExcept, update_eq]
  exact .put (folded _ _)

end Store

namespace Session

theorem sameRevisions_releaseUnused {V : Vocabulary} (session : Session V) (grammar : Grammar V)
    (trees : List V.Node) (cursors : List Cursor) :
    session.store.SameRevisions (session.releaseUnused grammar trees cursors).store := by
  have folded : ∀ (ids : List BufferId) (wanted : Cursor → Bool) (store : Store),
      store.SameRevisions (ids.foldl (·.releaseExcept wanted ·) store) := by
    intro ids wanted
    induction ids with
    | nil => exact fun _ _ => rfl
    | cons id ids inductionHypothesis =>
        intro store other
        rw [List.foldl_cons, inductionHypothesis]
        exact store.sameRevisions_releaseExcept wanted id other
  exact folded _ _ _

end Session

end Reparse
