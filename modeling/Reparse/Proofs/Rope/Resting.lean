import Reparse.Proofs.Rope.Navigating

/-!
# Walks while nothing is edited

Where nothing is edited the trees of a buffer stay as they are, and only anchors
come and go.  A walk looks at the trees alone, so it leads to the same place
before and after.  The places that walks lead to are settled ones.  A cursor that
is put on one of them stays there, and settling its place again does not move it.
-/

namespace Reparse

namespace Buffer

variable {first second buffer : Buffer}

/-! ## Walks look at the trees alone -/

theorem SameTrees.nodeCount (same : first.SameTrees second) : second.nodeCount = first.nodeCount :=
  Nat.le_antisymm same.symm.extends_.nodeCount_le same.extends_.nodeCount_le

theorem SameTrees.length (same : first.SameTrees second) (node : NodeId) :
    second.length node = first.length node := by
  have viewed : ∀ buffer : Buffer, buffer.length node = ((buffer.view node).map Node.length).getD 0 := by
    intro buffer
    rw [Buffer.length, Buffer.view]
    rcases buffer.nodes[node]? with _ | (_ | _) <;> rfl
  rw [viewed, viewed, same.view]

theorem SameTrees.leafText (same : first.SameTrees second) (node : NodeId) :
    second.leafText node = first.leafText node := by
  have viewed : ∀ buffer : Buffer, buffer.leafText node = ((buffer.view node).map Node.text).getD #[] := by
    intro buffer
    rw [Buffer.leafText, Buffer.view]
    rcases buffer.nodes[node]? with _ | (_ | _) <;> rfl
  rw [viewed, viewed, same.view]

theorem children_eq_view (buffer : Buffer) (node : NodeId) :
    buffer.children node =
      match buffer.view node with
      | some (.branch left right _ _ _) => (left, right)
      | _ => (node, node) := by
  rw [Buffer.children, Buffer.view]
  rcases buffer.nodes[node]? with _ | (_ | _) <;> rfl

theorem SameTrees.children (same : first.SameTrees second) (node : NodeId) :
    second.children node = first.children node := by
  rw [children_eq_view, children_eq_view, same.view]

theorem firstLeafWithin_succ (buffer : Buffer) (fuel : Nat) (node : NodeId) :
    buffer.firstLeafWithin (fuel + 1) node =
      match buffer.view node with
      | some (.branch left _ _ _ _) => buffer.firstLeafWithin fuel left
      | _ => node := by
  rw [Buffer.firstLeafWithin, Buffer.view]
  rcases buffer.nodes[node]? with _ | (_ | _) <;> rfl

theorem SameTrees.firstLeafWithin (same : first.SameTrees second) (fuel : Nat) (node : NodeId) :
    second.firstLeafWithin fuel node = first.firstLeafWithin fuel node := by
  induction fuel generalizing node with
  | zero => rfl
  | succ fuel inductionHypothesis =>
      simp only [firstLeafWithin_succ, same.view, inductionHypothesis]

theorem lastLeafWithin_succ (buffer : Buffer) (fuel : Nat) (node : NodeId) :
    buffer.lastLeafWithin (fuel + 1) node =
      match buffer.view node with
      | some (.branch _ right _ _ _) => buffer.lastLeafWithin fuel right
      | _ => node := by
  rw [Buffer.lastLeafWithin, Buffer.view]
  rcases buffer.nodes[node]? with _ | (_ | _) <;> rfl

theorem SameTrees.lastLeafWithin (same : first.SameTrees second) (fuel : Nat) (node : NodeId) :
    second.lastLeafWithin fuel node = first.lastLeafWithin fuel node := by
  induction fuel generalizing node with
  | zero => rfl
  | succ fuel inductionHypothesis =>
      simp only [lastLeafWithin_succ, same.view, inductionHypothesis]

theorem SameTrees.nextLeaf (same : first.SameTrees second) (leaf : NodeId) :
    second.nextLeaf leaf = first.nextLeaf leaf := by
  have within : ∀ fuel node, second.nextLeafWithin fuel node = first.nextLeafWithin fuel node := by
    intro fuel node
    induction fuel generalizing node with
    | zero => rfl
    | succ fuel inductionHypothesis =>
        simp only [nextLeafWithin, same.parent, same.children, same.nodeCount, same.firstLeafWithin,
          inductionHypothesis]
  rw [Buffer.nextLeaf, Buffer.nextLeaf, within, same.nodeCount]

theorem SameTrees.prevLeaf (same : first.SameTrees second) (leaf : NodeId) :
    second.prevLeaf leaf = first.prevLeaf leaf := by
  have within : ∀ fuel node, second.prevLeafWithin fuel node = first.prevLeafWithin fuel node := by
    intro fuel node
    induction fuel generalizing node with
    | zero => rfl
    | succ fuel inductionHypothesis =>
        simp only [prevLeafWithin, same.parent, same.children, same.nodeCount, same.lastLeafWithin,
          inductionHypothesis]
  rw [Buffer.prevLeaf, Buffer.prevLeaf, within, same.nodeCount]

theorem indexWithin_succ (buffer : Buffer) (fuel : Nat) (node : NodeId) (index : Nat) :
    buffer.indexWithin (fuel + 1) node index =
      match buffer.parent node with
      | none => index
      | some parent =>
        match buffer.view parent with
        | some (.branch _ right leftLength _ _) =>
          buffer.indexWithin fuel parent (if right = node then index + leftLength else index)
        | _ => buffer.indexWithin fuel parent index := by
  rw [indexWithin]
  rcases buffer.parent node with _ | parent
  · rfl
  · simp only [Buffer.view]
    rcases buffer.nodes[parent]? with _ | (_ | _) <;> rfl

theorem SameTrees.indexOf (same : first.SameTrees second) (place : Place) :
    second.indexOf place = first.indexOf place := by
  have within : ∀ fuel node index,
      second.indexWithin fuel node index = first.indexWithin fuel node index := by
    intro fuel node index
    induction fuel generalizing node index with
    | zero => rfl
    | succ fuel inductionHypothesis =>
        simp only [indexWithin_succ, same.parent, same.view, inductionHypothesis]
  rw [Buffer.indexOf, Buffer.indexOf, within, same.nodeCount]

theorem SameTrees.rootOf (same : first.SameTrees second) (node : NodeId) :
    second.rootOf node = first.rootOf node := by
  have within : ∀ fuel node, second.rootWithin fuel node = first.rootWithin fuel node := by
    intro fuel node
    induction fuel generalizing node with
    | zero => rfl
    | succ fuel inductionHypothesis => simp only [rootWithin, same.parent, inductionHypothesis]
  rw [Buffer.rootOf, Buffer.rootOf, within, same.nodeCount]

theorem SameTrees.settle (same : first.SameTrees second) (place : Place) :
    second.settle place = first.settle place := by
  have within : ∀ fuel place, second.settleWithin fuel place = first.settleWithin fuel place := by
    intro fuel place
    induction fuel generalizing place with
    | zero => rfl
    | succ fuel inductionHypothesis =>
        simp only [settleWithin, same.length, same.nextLeaf, inductionHypothesis]
  rw [Buffer.settle, Buffer.settle, within, same.nodeCount]

theorem SameTrees.peek (same : first.SameTrees second) (place : Place) :
    second.peek place = first.peek place := by
  rw [Buffer.peek, Buffer.peek, same.leafText]

theorem SameTrees.forward (same : first.SameTrees second) (place : Place) (count : Nat) :
    second.forward place count = first.forward place count := by
  rw [Buffer.forward, Buffer.forward]
  generalize count + 2 = fuel
  induction fuel generalizing place count with
  | zero => rfl
  | succ fuel inductionHypothesis =>
      simp only [forwardWithin, same.leafText, same.settle, same.nextLeaf, inductionHypothesis]

theorem SameTrees.backward (same : first.SameTrees second) (place : Place) (count : Nat) :
    second.backward place count = first.backward place count := by
  have within : ∀ fuel place count,
      second.backwardWithin fuel place count = first.backwardWithin fuel place count := by
    intro fuel place count
    induction fuel generalizing place count with
    | zero => rfl
    | succ fuel inductionHypothesis =>
        simp only [backwardWithin, same.prevLeaf, same.length, inductionHypothesis]
  rw [Buffer.backward, Buffer.backward, within, same.settle]

/-! ## Settled places -/

/-- A settled place of the buffer, be it in the newest version or in another one. -/
structure Rests (buffer : Buffer) (place : Place) : Prop where
  has : buffer.HasPlace place
  settled : buffer.Settled place

theorem SameTrees.rests (same : first.SameTrees second) {place : Place} (rests : first.Rests place) :
    second.Rests place := by
  refine ⟨rests.has.mono same.extends_, ?_⟩
  rw [Settled, same.length, same.nextLeaf]
  exact rests.settled

theorem WellFormed.rests_settle (formed : buffer.WellFormed) {place : Place}
    (has : buffer.HasPlace place) : buffer.Rests (buffer.settle place) :=
  ⟨formed.hasPlace_settle has, formed.settled_settle has⟩

theorem WellFormed.rests_backward (formed : buffer.WellFormed) {place : Place}
    (has : buffer.HasPlace place) (count : Nat) : buffer.Rests (buffer.backward place count) :=
  formed.rests_settle (formed.hasPlace_backwardWithin has _ _)

/-- A walk that is left with fuel has found a settled place.  Every leaf that follows
another one has text, so the fuel lasts. -/
theorem WellFormed.rests_forward (formed : buffer.WellFormed) {place : Place}
    (has : buffer.HasPlace place) (count : Nat) : buffer.Rests (buffer.forward place count).2 := by
  refine ⟨formed.hasPlace_forward has count, ?_⟩
  have within : ∀ fuel (place : Place) count, buffer.HasPlace place →
      (count < fuel ∧ place.offset < buffer.length place.leaf ∨ count + 1 < fuel) →
      buffer.Settled (buffer.forwardWithin fuel place count).2 := by
    intro fuel
    induction fuel with
    | zero =>
        intro place count has enough
        exact absurd enough (by omega)
    | succ fuel inductionHypothesis =>
        intro place count has enough
        have offset := has.offset_le
        have size := has.size_leafText
        simp only [forwardWithin]
        split
        · next taken =>
            apply formed.settled_settle
            apply has.move
            rw [← size]
            omega
        · cases follows : buffer.nextLeaf place.leaf with
          | none => exact Or.inr ⟨follows, size⟩
          | some next =>
              refine inductionHypothesis ⟨next, 0⟩ _ (formed.hasPlace_nextLeafWithin follows)
                (Or.inl ⟨?_, formed.length_nextLeafWithin_pos follows⟩)
              rw [size] at *
              omega
  exact within _ place count has (Or.inr (Nat.lt_succ_self _))

end Buffer

namespace Store

/-! ## Positions -/

/-- A settled position of the store. -/
def Rests (store : Store) (position : Position) : Prop :=
  (store.buffer position.buffer).Rests position.place

variable {before after store : Store}

theorem Shows.rests_positionAt {rope : Rope} {shape : Shape} (shown : store.Shows rope shape)
    (sound : store.Sound) {index : Nat} (within : index ≤ shape.text.length) :
    store.Rests (store.positionAt rope index) := by
  rw [positionAt, ← shown.1]
  exact (sound _).formed.rests_settle (Buffer.hasPlace_locate shown.2 within)

theorem SameTrees.symm (same : before.SameTrees after) : after.SameTrees before :=
  fun id => (same id).symm

theorem SameTrees.rests (same : before.SameTrees after) {position : Position}
    (rests : before.Rests position) : after.Rests position :=
  (same position.buffer).rests rests

theorem SameTrees.indexOf (same : before.SameTrees after) (position : Position) :
    after.indexOf position = before.indexOf position :=
  (same position.buffer).indexOf position.place

theorem Sound.rests_position (sound : store.Sound) {cursor : Cursor} {place : Place}
    (sits : store.place? cursor = some place) : store.Rests (store.position cursor) := by
  rw [position_of_place? sits]
  exact (sound _).formed.rests_settle (sound.hasPosition sits)

/-- A cursor that was put on a settled position is there. -/
theorem Rests.position_eq {position : Position} (rests : store.Rests position) {cursor : Cursor}
    (inBuffer : cursor.buffer = position.buffer)
    (sits : store.place? cursor = some position.place) : store.position cursor = position := by
  rw [position_of_place? sits, inBuffer, rests.settled.settle]

/-- Nothing is edited, and no cursor is moved or given up. -/
structure Keeps (before after : Store) : Prop where
  trees : before.SameTrees after
  places : ∀ cursor place, before.place? cursor = some place → after.place? cursor = some place

theorem Keeps.refl (store : Store) : store.Keeps store :=
  ⟨SameTrees.refl store, fun _ _ sits => sits⟩

theorem Keeps.trans {first second third : Store} (one : first.Keeps second)
    (two : second.Keeps third) : first.Keeps third :=
  ⟨one.trees.trans two.trees, fun cursor place sits =>
    two.places cursor place (one.places cursor place sits)⟩

theorem Keeps.position (keeps : before.Keeps after) {cursor : Cursor} {place : Place}
    (sits : before.place? cursor = some place) : after.position cursor = before.position cursor := by
  rw [position_of_place? sits, position_of_place? (keeps.places cursor place sits),
    (keeps.trees cursor.buffer).settle]

/-- Putting a cursor on a position of the store. -/
theorem Sound.cursorAt_keeps (sound : store.Sound) {position : Position}
    (has : store.HasPosition position) :
    (store.cursorAt position).2.Sound ∧ store.Keeps (store.cursorAt position).2 ∧
      (store.cursorAt position).1.buffer = position.buffer ∧
      (store.cursorAt position).2.place? (store.cursorAt position).1 = some position.place := by
  rcases cursorAt_spec sound has with ⟨vacant, inBuffer, reseats⟩
  refine ⟨reseats.sound, ⟨reseats.trees, fun cursor place sits => ?_⟩, inBuffer, ?_⟩
  · rw [reseats.place, if_neg]
    · exact sits
    · rintro rfl
      rw [vacant] at sits
      cases sits
  · rw [reseats.place, if_pos rfl]

end Store

end Reparse
