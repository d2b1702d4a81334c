import Reparse.Proofs.Rope.Walking
import Reparse.Rope.Cursor

/-!
# Operations on a store

What holds of one buffer is carried over to a store of buffers.  Operations on
ropes change one buffer and let it evolve, so every rope that the store shows
before is shown after.  Operations on cursors leave all trees as they are.  Each
of them is described by where the cursors are after it.
-/

namespace Reparse

namespace Store

variable {store : Store}

/-! ## One buffer replaced -/

/-- The store with another buffer under a number that is taken. -/
def put (store : Store) (id : BufferId) (buffer : Buffer) : Store :=
  ⟨store.buffers.setIfInBounds id buffer⟩

theorem buffer_eq_empty (store : Store) {id : BufferId} (beyond : store.buffers.size ≤ id) :
    store.buffer id = {} := by
  rw [buffer, Array.getElem?_eq_none beyond, Option.getD_none]

theorem buffer_put (store : Store) {id : BufferId} (within : id < store.buffers.size)
    (content : Buffer) (other : BufferId) :
    (store.put id content).buffer other = if other = id then content else store.buffer other := by
  rw [buffer, put, Array.getElem?_setIfInBounds]
  by_cases same : other = id
  · rw [if_pos same.symm, if_pos within, if_pos same, Option.getD_some]
  · rw [if_neg (Ne.symm same), if_neg same, buffer]

theorem put_of_le (store : Store) {id : BufferId} (beyond : store.buffers.size ≤ id)
    (content : Buffer) : store.put id content = store := by
  rw [put, Array.setIfInBounds_eq_of_size_le beyond]

/-- What holds of the buffer that is put, and of all that were there, holds of all. -/
theorem forall_buffer_put {motive : BufferId → Buffer → Prop} {id : BufferId} {content : Buffer}
    (isPut : motive id content) (wasThere : ∀ other, motive other (store.buffer other))
    (other : BufferId) : motive other ((store.put id content).buffer other) := by
  rcases Nat.lt_or_ge id store.buffers.size with within | beyond
  · rw [store.buffer_put within]
    split
    · next same => exact same ▸ isPut
    · exact wasThere other
  · rw [store.put_of_le beyond]
    exact wasThere other

theorem update_eq {α : Type} (store : Store) (id : BufferId) (change : Buffer → α × Buffer) :
    store.update id change =
      ((change (store.buffer id)).1, store.put id (change (store.buffer id)).2) := by
  simp only [update, put, Array.setIfInBounds_setIfInBounds]

/-- A buffer that was not changed is put back as it was. -/
@[simp] theorem put_self (store : Store) (id : BufferId) : store.put id (store.buffer id) = store := by
  have same : store.buffers.setIfInBounds id (store.buffer id) = store.buffers := by
    refine Array.ext Array.size_setIfInBounds fun other within within' => ?_
    rw [Array.getElem_setIfInBounds within', buffer]
    split
    · next here =>
        subst here
        rw [Array.getElem?_eq_getElem within', Option.getD_some]
    · rfl
  rw [put, same]

theorem size_update {α : Type} (store : Store) (id : BufferId) (change : Buffer → α × Buffer) :
    (store.update id change).2.buffers.size = store.buffers.size := by
  rw [update_eq, put, Array.size_setIfInBounds]

theorem buffer_newBuffer (store : Store) (id : BufferId) :
    store.newBuffer.2.buffer id = store.buffer id := by
  rw [newBuffer, buffer, Array.getElem?_push, buffer]
  split
  · next new => rw [new, Array.getElem?_eq_none (Nat.le_refl _), Option.getD_some, Option.getD_none]
  · rfl

/-- A number with nodes is that of a buffer of the store. -/
theorem lt_size_of_lt_nodeCount {id : BufferId} {node : NodeId}
    (within : node < (store.buffer id).nodeCount) : id < store.buffers.size := by
  rcases Nat.lt_or_ge id store.buffers.size with taken | beyond
  · exact taken
  · rw [store.buffer_eq_empty beyond] at within
    exact absurd within (Nat.not_lt_zero _)

/-! ## Stores that evolve -/

def Sound (store : Store) : Prop := ∀ id, (store.buffer id).Sound

/-- Every buffer evolves. -/
def Evolves (before after : Store) : Prop := ∀ id, (before.buffer id).Evolves (after.buffer id)

/-- Every buffer only grows. -/
def Extends (before after : Store) : Prop := ∀ id, (before.buffer id).Extends (after.buffer id)

theorem Sound.empty : Sound {} := fun _ => Buffer.Sound.empty

theorem Evolves.sound {before after : Store} (evolves : before.Evolves after) : after.Sound :=
  fun id => (evolves id).sound

theorem Evolves.extends_ {before after : Store} (evolves : before.Evolves after) :
    before.Extends after :=
  fun id => (evolves id).grown

theorem Evolves.refl (sound : store.Sound) : store.Evolves store :=
  fun id => Buffer.Evolves.refl (sound id)

theorem Extends.refl (store : Store) : store.Extends store :=
  fun _ => Buffer.Extends.refl _

theorem Extends.trans {first second third : Store} (one : first.Extends second)
    (two : second.Extends third) : first.Extends third :=
  fun id => (one id).trans (two id)

theorem evolves_put (sound : store.Sound) {id : BufferId} {content : Buffer}
    (evolves : (store.buffer id).Evolves content) : store.Evolves (store.put id content) :=
  forall_buffer_put (motive := fun other buffer => (store.buffer other).Evolves buffer) evolves
    (Evolves.refl sound)

theorem evolves_newBuffer (sound : store.Sound) : store.Evolves store.newBuffer.2 := by
  intro id
  rw [buffer_newBuffer]
  exact Buffer.Evolves.refl (sound id)

/-! ## Ropes with their shapes -/

/-- A rope of the store, with its shape. -/
def Shows (store : Store) (rope : Rope) (shape : Shape) : Prop :=
  shape.root = rope.root ∧ (store.buffer rope.buffer).Shows shape

theorem Shows.mono {before after : Store} (grown : before.Extends after) {rope : Rope}
    {shape : Shape} (shown : before.Shows rope shape) : after.Shows rope shape :=
  ⟨shown.1, shown.2.mono (grown rope.buffer)⟩

theorem Shows.lt_size {rope : Rope} {shape : Shape} (shown : store.Shows rope shape) :
    rope.buffer < store.buffers.size :=
  lt_size_of_lt_nodeCount shown.2.root_lt

theorem Shows.length {rope : Rope} {shape : Shape} (shown : store.Shows rope shape) :
    store.length rope = shape.text.length := by
  rw [Store.length, ← shown.1, shown.2.length]

theorem Shows.text {rope : Rope} {shape : Shape} (shown : store.Shows rope shape) :
    store.text rope = String.ofList shape.text := by
  rw [Store.text, ← shown.1, Buffer.text_of_shows shown.2]

theorem Shows.charAt {rope : Rope} {shape : Shape} (shown : store.Shows rope shape) (index : Nat) :
    store.charAt rope index = shape.text[index]? := by
  rw [Store.charAt, ← shown.1, Buffer.charAt_of_shows shown.2]

theorem Shows.leaves {rope : Rope} {shape : Shape} (shown : store.Shows rope shape) :
    store.leaves rope = shape.chunks.map fun chunk => String.ofList chunk.2 := by
  rw [Store.leaves, ← shown.1, Buffer.leaves_of_shows shown.2, List.map_map]
  refine List.map_congr_left fun chunk member => ?_
  rw [Function.comp_apply, shown.2.leafText_chunk member]

theorem Shows.piece_reads {rope : Rope} {shape : Shape} (shown : store.Shows rope shape)
    (id : BufferId) : (store.buffer id).Reads shape.text (store.piece id rope) := by
  rw [piece]
  split
  · next same => exact ⟨shape, shown.1, same ▸ shown.2, rfl⟩
  · rw [← shown.1, Buffer.text_of_shows shown.2]
    rfl

theorem shows_put {id : BufferId} (within : id < store.buffers.size) {content : Buffer}
    {shape : Shape} (shown : content.Shows shape) : (store.put id content).Shows ⟨id, shape.root⟩ shape := by
  refine ⟨rfl, ?_⟩
  rw [store.buffer_put within, if_pos rfl]
  exact shown

/-! ## Operations on ropes -/

theorem rope_spec (sound : store.Sound) {id : BufferId} (within : id < store.buffers.size)
    (text : String) :
    ∃ shape, (store.rope id text).2.Shows (store.rope id text).1 shape ∧
      shape.text = text.toList ∧ store.Evolves (store.rope id text).2 := by
  simp only [rope, update_eq]
  refine ⟨.leaf (store.buffer id).nodeCount text.toList, shows_put within ?_, rfl, ?_⟩
  · exact Buffer.view_addLeaf_new _ _
  · exact evolves_put sound (Buffer.evolves_addLeaf (sound id) _)

theorem newRope_spec (sound : store.Sound) (text : String) :
    ∃ shape, (store.newRope text).2.Shows (store.newRope text).1 shape ∧
      shape.text = text.toList ∧ store.Evolves (store.newRope text).2 := by
  have grown := evolves_newBuffer sound
  have within : store.newBuffer.1 < store.newBuffer.2.buffers.size := by
    simp only [newBuffer, Array.size_push, Nat.lt_succ_self]
  rcases rope_spec grown.sound within text with ⟨shape, shown, same, evolves⟩
  refine ⟨shape, shown, same, fun id => (grown id).trans (evolves id)⟩

theorem concat_spec (sound : store.Sound) {first second : Rope} {shape shape' : Shape}
    (shown : store.Shows first shape) (shown' : store.Shows second shape') :
    ∃ whole, (store.concat first second).2.Shows (store.concat first second).1 whole ∧
      whole.text = shape.text ++ shape'.text ∧ store.Evolves (store.concat first second).2 := by
  rcases Buffer.concat_spec (sound first.buffer) shown.2 (shown'.piece_reads first.buffer) with
    ⟨whole, root, evolves, wholeShown, text⟩
  simp only [concat, update_eq]
  rw [shown.1] at root evolves wholeShown
  refine ⟨whole, ?_, text, evolves_put sound evolves⟩
  rw [root]
  exact shows_put shown.lt_size wholeShown

theorem split_error {rope : Rope} {shape : Shape} (shown : store.Shows rope shape) {index : Nat}
    (beyond : shape.text.length < index) :
    store.split rope index = (.error (.outOfBounds index shape.text.length), store) := by
  rw [split, update_eq, ← shown.1, Buffer.split_error shown.2 beyond]
  simp only [put_self]
  rfl

theorem split_spec (sound : store.Sound) {rope : Rope} {shape : Shape}
    (shown : store.Shows rope shape) {index : Nat} (within : index ≤ shape.text.length) :
    ∃ left right after first rest, store.split rope index = (.ok (left, right), after) ∧
      after.buffers.size = store.buffers.size ∧ store.Evolves after ∧ after.Shows left first ∧
      after.Shows right rest ∧
      first.text = shape.text.take index ∧ rest.text = shape.text.drop index := by
  rcases Buffer.split_spec (sound rope.buffer) shown.2 within with
    ⟨first, rest, cut, done, evolves, firstShown, restShown, firstText, restText⟩
  refine ⟨⟨rope.buffer, first.root⟩, ⟨rope.buffer, rest.root⟩, store.put rope.buffer cut, first, rest,
    ?_, Array.size_setIfInBounds, evolves_put sound evolves, shows_put shown.lt_size firstShown,
    shows_put shown.lt_size restShown, firstText, restText⟩
  rw [split, update_eq, ← shown.1, done]
  rfl

theorem replace_inverted {rope replacement : Rope} {start stop : Nat} (inverted : stop < start) :
    store.replace rope start stop replacement = (.error (.inverted start stop), store) := by
  rw [replace, update_eq, Buffer.replace_inverted inverted]
  simp only [put_self]
  rfl

theorem replace_outOfBounds {rope replacement : Rope} {shape : Shape}
    (shown : store.Shows rope shape) {start stop : Nat} (ordered : start ≤ stop)
    (beyond : shape.text.length < stop) :
    store.replace rope start stop replacement =
      (.error (.outOfBounds stop shape.text.length), store) := by
  rw [replace, update_eq, ← shown.1, Buffer.replace_outOfBounds shown.2 ordered beyond]
  simp only [put_self]
  rfl

theorem replace_spec (sound : store.Sound) {rope replacement : Rope} {shape shape' : Shape}
    (shown : store.Shows rope shape) (shown' : store.Shows replacement shape') {start stop : Nat}
    (ordered : start ≤ stop) (within : stop ≤ shape.text.length) :
    ∃ edit after whole cut, store.replace rope start stop replacement = (.ok edit, after) ∧
      after.buffers.size = store.buffers.size ∧ store.Evolves after ∧ after.Shows edit.replaced whole ∧
      after.Shows edit.removed cut ∧
      whole.text = shape.text.take start ++ shape'.text ++ shape.text.drop stop ∧
      cut.text = (shape.text.take stop).drop start := by
  rcases Buffer.replace_spec (sound rope.buffer) shown.2 (shown'.piece_reads rope.buffer) ordered
      within with
    ⟨whole, cut, edited, done, evolves, wholeShown, cutShown, wholeText, cutText⟩
  refine ⟨⟨⟨rope.buffer, whole.root⟩, ⟨rope.buffer, cut.root⟩⟩, store.put rope.buffer edited, whole,
    cut, ?_, Array.size_setIfInBounds, evolves_put sound evolves, shows_put shown.lt_size wholeShown,
    shows_put shown.lt_size cutShown, wholeText, cutText⟩
  rw [replace, update_eq, ← shown.1, done]
  rfl

/-! ## Where cursors are -/

/-- The place at which the anchor of a cursor sits. -/
def place? (store : Store) (cursor : Cursor) : Option Place :=
  (store.buffer cursor.buffer).anchor? cursor.anchor

def HasPosition (store : Store) (position : Position) : Prop :=
  (store.buffer position.buffer).HasPlace position.place

/-- The trees of all buffers are the same, and only cursors may differ. -/
def SameTrees (before after : Store) : Prop :=
  ∀ id, (before.buffer id).SameTrees (after.buffer id)

theorem SameTrees.refl (store : Store) : store.SameTrees store :=
  fun _ => Buffer.SameTrees.refl _

theorem SameTrees.trans {first second third : Store} (one : first.SameTrees second)
    (two : second.SameTrees third) : first.SameTrees third :=
  fun id => (one id).trans (two id)

theorem SameTrees.extends_ {before after : Store} (same : before.SameTrees after) :
    before.Extends after :=
  fun id => (same id).extends_

theorem HasPosition.lt_size {position : Position} (has : store.HasPosition position) :
    position.buffer < store.buffers.size := by
  rcases has with ⟨text, found, _⟩
  exact lt_size_of_lt_nodeCount (Buffer.lt_nodeCount_of_view found)

theorem Sound.hasPosition (sound : store.Sound) {cursor : Cursor} {place : Place}
    (sits : store.place? cursor = some place) : store.HasPosition ⟨cursor.buffer, place⟩ :=
  (sound cursor.buffer).seated.placed cursor.anchor place sits

theorem lt_size_of_place? {cursor : Cursor} {place : Place}
    (sits : store.place? cursor = some place) : cursor.buffer < store.buffers.size := by
  rcases Nat.lt_or_ge cursor.buffer store.buffers.size with within | beyond
  · exact within
  · rw [place?, store.buffer_eq_empty beyond] at sits
    cases sits

/-- What an operation does that seats or releases one cursor. -/
structure Reseats (before after : Store) (cursor : Cursor) (place : Option Place) : Prop where
  sound : after.Sound
  trees : before.SameTrees after
  place : ∀ other, after.place? other = if other = cursor then place else before.place? other

/-- Reseating an anchor in one buffer reseats a cursor of the store. -/
theorem reseats_put (sound : store.Sound) {id : BufferId} (within : id < store.buffers.size)
    {content : Buffer} {anchor : AnchorId} {place : Option Place}
    (seated : content.Seated) (trees : (store.buffer id).SameTrees content)
    (places : ∀ other, content.anchor? other =
      if other = anchor then place else (store.buffer id).anchor? other) :
    store.Reseats (store.put id content) ⟨id, anchor⟩ place := by
  constructor
  · exact forall_buffer_put (motive := fun _ buffer => buffer.Sound)
      ⟨trees.wellFormed (sound id).formed, seated⟩ sound
  · exact forall_buffer_put (motive := fun other buffer => (store.buffer other).SameTrees buffer)
      trees (SameTrees.refl store)
  · rintro ⟨other, slot⟩
    rw [place?, store.buffer_put within]
    by_cases sameBuffer : other = id
    · subst sameBuffer
      rw [if_pos rfl, places]
      by_cases sameSlot : slot = anchor
      · rw [if_pos sameSlot, if_pos (by rw [sameSlot])]
      · rw [if_neg sameSlot, if_neg (by rintro ⟨⟩; exact sameSlot rfl), place?]
    · rw [if_neg sameBuffer, if_neg (by rintro ⟨⟩; exact sameBuffer rfl), place?]

/-- A new cursor takes a slot that was not in use. -/
theorem cursorAt_spec (sound : store.Sound) {position : Position} (has : store.HasPosition position) :
    store.place? (store.cursorAt position).1 = none ∧
      (store.cursorAt position).1.buffer = position.buffer ∧
      store.Reseats (store.cursorAt position).2 (store.cursorAt position).1 (some position.place) := by
  have fresh := Buffer.anchor?_addAnchor (sound position.buffer).seated position.place
  simp only [cursorAt, update_eq]
  exact ⟨fresh.1, trivial, reseats_put sound has.lt_size ((sound _).seated.addAnchor has)
    (Buffer.sameTrees_addAnchor _) fresh.2⟩

/-- A cursor is made at each index up to the end. -/
theorem cursor_eq (store : Store) (rope : Rope) (index : Nat) :
    store.cursor rope index =
      if store.length rope < index then (.error (.outOfBounds index (store.length rope)), store)
      else (.ok (store.cursorAt (store.positionAt rope index)).1,
        (store.cursorAt (store.positionAt rope index)).2) := by
  rw [cursor, positionAt?]
  by_cases beyond : store.length rope < index
  · simp only [if_pos beyond]
  · simp only [if_neg beyond]

theorem release_spec (sound : store.Sound) (cursor : Cursor) :
    store.Reseats (store.release cursor) cursor none := by
  simp only [release, update_eq]
  rcases Nat.lt_or_ge cursor.buffer store.buffers.size with within | beyond
  · exact reseats_put sound within ((sound _).seated.releaseAnchor _)
      (Buffer.sameTrees_releaseAnchor _) (Buffer.anchor?_releaseAnchor _)
  · rw [store.put_of_le beyond]
    refine ⟨sound, SameTrees.refl store, fun other => ?_⟩
    split
    · next same =>
        rw [same, place?, store.buffer_eq_empty beyond]
        rfl
    · rfl

theorem seat_spec (sound : store.Sound) {cursor : Cursor} {old place : Place}
    (sits : store.place? cursor = some old) (has : store.HasPosition ⟨cursor.buffer, place⟩) :
    store.Reseats (store.seat cursor place) cursor (some place) := by
  simp only [seat, update_eq]
  exact reseats_put sound (lt_size_of_place? sits) ((sound _).seated.moveAnchor sits has)
    (Buffer.sameTrees_moveAnchor _ _)
    (Buffer.anchor?_moveAnchor (Buffer.lt_size_of_anchor? sits) place)

/-! ## Positions of cursors -/

theorem sameDocument_iff (first second : Position) :
    store.sameDocument first second = true ↔ first.buffer = second.buffer ∧
      (store.buffer first.buffer).rootOf first.place.leaf =
        (store.buffer first.buffer).rootOf second.place.leaf := by
  simp only [sameDocument, Bool.and_eq_true, beq_iff_eq]

theorem position_of_place? {cursor : Cursor} {place : Place}
    (sits : store.place? cursor = some place) :
    store.position cursor = ⟨cursor.buffer, (store.buffer cursor.buffer).settle place⟩ := by
  simp only [place?] at sits
  simp only [position, sits, Option.getD_some]

theorem Sound.hasPosition_position (sound : store.Sound) {cursor : Cursor} {place : Place}
    (sits : store.place? cursor = some place) : store.HasPosition (store.position cursor) := by
  rw [position_of_place? sits]
  exact (sound _).formed.hasPlace_settle (sound.hasPosition sits)

theorem Sound.hasPosition_readFrom (sound : store.Sound) {position : Position}
    (has : store.HasPosition position) (count : Nat) :
    store.HasPosition (store.readFrom position count).2 :=
  (sound _).formed.hasPlace_forward has count

theorem Sound.hasPosition_backFrom (sound : store.Sound) {position : Position}
    (has : store.HasPosition position) (count : Nat) :
    store.HasPosition (store.backFrom position count) :=
  (sound _).formed.hasPlace_backward has count

theorem Sound.hasPosition_positionAt (sound : store.Sound) {rope : Rope} {shape : Shape}
    (shown : store.Shows rope shape) {index : Nat} (within : index ≤ shape.text.length) :
    store.HasPosition (store.positionAt rope index) := by
  rw [positionAt, ← shown.1]
  exact (sound _).formed.hasPlace_settle (Buffer.hasPlace_locate shown.2 within)

end Store

end Reparse
