import Reparse.Parsing.Reference
import Reparse.Proofs.Rope.Stores

namespace Reparse

/-!
# Releasing cursors that are out of use

The search for cursors in use only ever adds to what it has found.  So the
cursors of the kept nodes, from which it sets out, are among those that it ends
with, whatever trees it walks through.  Releasing all others moves none of them,
and changes no text.
-/

instance : Std.TransOrd Cursor :=
  inferInstanceAs (Std.TransCmp (compareLex _ _))

/-! ## The cursors found -/

namespace Tree

variable {α κ : Type}

mutual

theorem contains_reach {cursor : Cursor} (tree : Tree α κ) (reached : Reached)
    (found : reached.cursors.contains cursor = true) :
    (tree.reach reached).cursors.contains cursor = true := by
  match tree, reached with
  | .node label children origin, ⟨cursors, nodes⟩ =>
      rw [reach]
      split
      · exact found
      · refine contains_reachAll children _ ?_
        rw [Std.TreeSet.contains_insert, Std.TreeSet.contains_insert, found, Bool.or_true,
          Bool.or_true]

theorem contains_reachAll {cursor : Cursor} (trees : List (Tree α κ)) (reached : Reached)
    (found : reached.cursors.contains cursor = true) :
    (reachAll trees reached).cursors.contains cursor = true := by
  match trees with
  | [] =>
      rw [reachAll]
      exact found
  | tree :: trees =>
      rw [reachAll]
      exact contains_reachAll trees _ (contains_reach tree reached found)

end

end Tree

theorem contains_foldl_insert {cursor : Cursor} (cursors : List Cursor)
    (set : Std.TreeSet Cursor) (found : cursor ∈ cursors ∨ set.contains cursor = true) :
    (cursors.foldl (·.insert ·) set).contains cursor = true := by
  induction cursors generalizing set with
  | nil => exact found.resolve_left List.not_mem_nil
  | cons head tail inductionHypothesis =>
      rw [List.foldl_cons]
      apply inductionHypothesis
      rw [Std.TreeSet.contains_insert]
      rcases found with member | inSet
      · rcases List.mem_cons.mp member with rfl | later
        · refine Or.inr ?_
          rw [Std.ReflOrd.compare_self]
          rfl
        · exact Or.inl later
      · exact Or.inr (by rw [inSet, Bool.or_true])

/-! ## The releases -/

namespace Buffer

/-- Releasing anchors one after the other. -/
theorem foldl_release_spec (wanted : AnchorId → Bool) (anchors : List AnchorId) {buffer : Buffer}
    (sound : buffer.Sound) :
    let after := anchors.foldl
      (fun buffer anchor => if wanted anchor then buffer else buffer.releaseAnchor anchor) buffer
    after.Sound ∧ buffer.SameTrees after ∧
      ∀ anchor, wanted anchor = true → after.anchor? anchor = buffer.anchor? anchor := by
  induction anchors generalizing buffer with
  | nil => exact ⟨sound, SameTrees.refl buffer, fun _ _ => rfl⟩
  | cons head tail inductionHypothesis =>
      rw [List.foldl_cons]
      by_cases isWanted : wanted head = true
      · rw [if_pos isWanted]
        exact inductionHypothesis sound
      · rw [if_neg isWanted]
        have trees := buffer.sameTrees_releaseAnchor head
        rcases inductionHypothesis ⟨trees.wellFormed sound.formed, sound.seated.releaseAnchor head⟩
          with ⟨sound', trees', kept⟩
        refine ⟨sound', trees.trans trees', fun anchor wants => ?_⟩
        rw [kept anchor wants, anchor?_releaseAnchor, if_neg]
        rintro rfl
        exact isWanted wants

end Buffer

namespace Store

/-- The texts stay, and so do the cursors that are wanted. -/
structure Releases (before after : Store) (wanted : Cursor → Bool) : Prop where
  sound : after.Sound
  trees : before.SameTrees after
  place : ∀ cursor, wanted cursor = true → after.place? cursor = before.place? cursor

variable {store : Store} {wanted : Cursor → Bool}

theorem Releases.trans {first second third : Store} (one : first.Releases second wanted)
    (two : second.Releases third wanted) : first.Releases third wanted :=
  ⟨two.sound, one.trees.trans two.trees, fun cursor wants =>
    (two.place cursor wants).trans (one.place cursor wants)⟩

theorem releaseExcept_spec (wanted : Cursor → Bool) (sound : store.Sound) (id : BufferId) :
    store.Releases (store.releaseExcept wanted id) wanted := by
  rw [releaseExcept, update_eq]
  rcases Buffer.foldl_release_spec (fun anchor => wanted ⟨id, anchor⟩)
    (List.range (store.buffer id).anchors.size) (sound id) with ⟨sound', trees, kept⟩
  refine ⟨forall_buffer_put (motive := fun _ buffer => buffer.Sound) sound' sound,
    forall_buffer_put (motive := fun other buffer => (store.buffer other).SameTrees buffer) trees
      (SameTrees.refl store), fun cursor wants => ?_⟩
  exact forall_buffer_put (motive := fun other buffer => ∀ anchor, wanted ⟨other, anchor⟩ = true →
    buffer.anchor? anchor = (store.buffer other).anchor? anchor) kept (fun _ _ _ => rfl)
    cursor.buffer cursor.anchor wants

theorem foldl_releaseExcept_spec (ids : List BufferId) (sound : store.Sound) :
    store.Releases (ids.foldl (·.releaseExcept wanted ·) store) wanted := by
  induction ids generalizing store with
  | nil => exact ⟨sound, SameTrees.refl store, fun _ _ => rfl⟩
  | cons id ids inductionHypothesis =>
      have first := releaseExcept_spec wanted sound id
      exact first.trans (inductionHypothesis first.sound)

end Store

namespace Session

variable {V : Vocabulary}

/-- Releasing what is out of use keeps the cursors of all kept nodes. -/
theorem releaseUnused_spec {session : Session V} (sound : session.store.Sound)
    (grammar : Grammar V) (trees : List V.Node) (cursors : List Cursor) :
    ∃ wanted store, session.releaseUnused grammar trees cursors = { session with store } ∧
      session.store.Releases store wanted ∧
      ∀ cursor ∈ session.heldCursors ++ cursors, wanted cursor = true := by
  refine ⟨_, _, rfl, Store.foldl_releaseExcept_spec _ sound, fun cursor member => ?_⟩
  exact Tree.contains_reachAll _ _ (contains_foldl_insert _ _ (Or.inl member))

end Session

end Reparse
