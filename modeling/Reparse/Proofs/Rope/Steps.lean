import Reparse.Proofs.Rope.Stores

/-!
# Edits are rows of steps

Splitting, joining and replacing are long operations, but they reach into a buffer in four ways
only.  They make a leaf, they make a branch, they write a parent, and they cut a leaf in two.
What all of these leave alone is left alone by every edit, and what each of them keeps up is
kept up by a whole row of them.  So such a property is proved for the four steps, and an edit
need not be looked into again.
-/

namespace Reparse

namespace Buffer

variable {buffer : Buffer}

/-- The second buffer comes of the first one by making and relinking nodes. -/
inductive Steps (buffer : Buffer) : Buffer → Prop where
  | none : Steps buffer buffer
  | addLeaf {after : Buffer} (before : Steps buffer after) (text : Array Char) :
      Steps buffer (after.addLeaf text).2
  | setParent {after : Buffer} (before : Steps buffer after) (node : NodeId)
      (parent : Option NodeId) : Steps buffer (after.setParent node parent)
  | addBranch {after : Buffer} (before : Steps buffer after) (left right : NodeId) :
      Steps buffer (after.addBranch left right).2
  | splitLeaf {after : Buffer} (before : Steps buffer after) (leaf : NodeId) (cut : Nat) :
      Steps buffer (after.splitLeaf leaf cut).2

theorem Steps.trans {first second third : Buffer} (one : first.Steps second)
    (two : second.Steps third) : first.Steps third := by
  induction two with
  | none => exact one
  | addLeaf _ text inductionHypothesis => exact inductionHypothesis.addLeaf text
  | setParent _ node parent inductionHypothesis => exact inductionHypothesis.setParent node parent
  | addBranch _ left right inductionHypothesis => exact inductionHypothesis.addBranch left right
  | splitLeaf _ leaf cut inductionHypothesis => exact inductionHypothesis.splitLeaf leaf cut

theorem steps_splitWithin (buffer : Buffer) (fuel : Nat) (node : NodeId) (index : Nat) :
    buffer.Steps (buffer.splitWithin fuel node index).2 := by
  induction fuel generalizing node index with
  | zero => exact .none
  | succ fuel inductionHypothesis =>
      rw [splitWithin]
      split
      · split
        · exact (inductionHypothesis _ _).addBranch _ _
        · split
          · exact (inductionHypothesis _ _).addBranch _ _
          · exact .none
      · exact Steps.none.splitLeaf node index

theorem steps_splitOwned (buffer : Buffer) (root : NodeId) (index : Nat) :
    buffer.Steps (buffer.splitOwned root index).2 := by
  rw [splitOwned]
  refine Steps.setParent (Steps.setParent ?_ _ _) _ _
  split
  · exact Steps.none.addLeaf #[]
  · split
    · exact Steps.none.addLeaf #[]
    · exact buffer.steps_splitWithin _ _ _

theorem steps_split (buffer : Buffer) (root : NodeId) (index : Nat) :
    buffer.Steps (buffer.split root index).2 := by
  simp only [split]
  split
  · exact .none
  · split
    · exact buffer.steps_splitOwned root index
    · have copied : buffer.Steps (buffer.addLeaf (buffer.text root).toArray).2 :=
        Steps.none.addLeaf _
      split
      · exact copied
      · exact copied.trans (steps_splitOwned _ _ _)

theorem steps_concat (buffer : Buffer) (root : NodeId) (piece : Piece) :
    buffer.Steps (buffer.concat root piece).2 := by
  have adopts : buffer.Steps (buffer.adopt root piece).2 := by
    cases piece with
    | tree other =>
        simp only [adopt]
        split
        · exact Steps.none.addLeaf _
        · exact .none
    | text chars => exact Steps.none.addLeaf chars
  have joins : ∀ (buffer : Buffer) (other : NodeId), buffer.Steps (buffer.join root other).2 := by
    intro buffer other
    rw [join]
    split
    · exact .none
    · split
      · exact .none
      · exact Steps.none.addBranch _ _
  exact adopts.trans (joins _ _)

theorem steps_replace (buffer : Buffer) (root : NodeId) (start stop : Nat) (piece : Piece) :
    buffer.Steps (buffer.replace root start stop piece).2 := by
  simp only [replace]
  split
  · exact .none
  · split
    · exact .none
    · have first := buffer.steps_split root start
      generalize buffer.split root start = cut at first ⊢
      rcases cut with ⟨error | ⟨left, rest⟩, cutOnce⟩
      · exact first
      · have second := cutOnce.steps_split rest (stop - start)
        simp only
        generalize cutOnce.split rest (stop - start) = cut at second ⊢
        rcases cut with ⟨error | ⟨removed, right⟩, cutTwice⟩
        · exact first.trans second
        · exact first.trans (second.trans ((steps_concat _ _ _).trans (steps_concat _ _ _)))

end Buffer

namespace Store

variable {store : Store}

/-- In every buffer nodes are made and relinked. -/
def Steps (before after : Store) : Prop := ∀ id, (before.buffer id).Steps (after.buffer id)

theorem Steps.none (store : Store) : store.Steps store := fun _ => .none

theorem Steps.trans {first second third : Store} (one : first.Steps second)
    (two : second.Steps third) : first.Steps third :=
  fun id => (one id).trans (two id)

theorem steps_put {id : BufferId} {content : Buffer} (steps : (store.buffer id).Steps content) :
    store.Steps (store.put id content) :=
  forall_buffer_put (motive := fun other buffer => (store.buffer other).Steps buffer) steps
    (Steps.none store)

theorem steps_newBuffer (store : Store) : store.Steps store.newBuffer.2 := by
  intro id
  rw [store.buffer_newBuffer]
  exact .none

theorem steps_rope (store : Store) (id : BufferId) (text : String) :
    store.Steps (store.rope id text).2 := by
  simp only [rope, update_eq]
  exact steps_put (Buffer.Steps.none.addLeaf _)

theorem steps_newRope (store : Store) (text : String) : store.Steps (store.newRope text).2 :=
  store.steps_newBuffer.trans (store.newBuffer.2.steps_rope store.newBuffer.1 text)

theorem steps_concat (store : Store) (first second : Rope) :
    store.Steps (store.concat first second).2 := by
  simp only [concat, update_eq]
  exact steps_put (Buffer.steps_concat _ _ _)

theorem steps_split (store : Store) (rope : Rope) (index : Nat) :
    store.Steps (store.split rope index).2 := by
  simp only [split, update_eq]
  exact steps_put (Buffer.steps_split _ _ _)

theorem steps_replace (store : Store) (rope : Rope) (start stop : Nat) (insertion : Rope) :
    store.Steps (store.replace rope start stop insertion).2 := by
  simp only [replace, update_eq]
  exact steps_put (Buffer.steps_replace _ _ _ _ _)

end Store

end Reparse
