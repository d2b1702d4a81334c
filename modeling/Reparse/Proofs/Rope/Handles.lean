import Reparse.Proofs.Rope.Persistence
import Reparse.Proofs.Rope.Rehousing

/-!
# Every slot has one holder

A live cursor holds a slot of its buffer.  In the course of a desk cursors are made, copied,
moved and released, slots are used again, and leaves are cut, in any order.  The list of a leaf
is tidied when its room is used up, and how much room it gets is up to whoever allocates it.

Each of these happenings makes one cursor, releases one cursor, or keeps all slots as they are.
So the slots in use are those of the live cursors, each held by one of them, and the other slots
wait.  No cursor is forgotten by the leaf where it sits, and therefore a cut finds all anchors
that it has to move.
-/

namespace Reparse

namespace Buffer

variable {buffer : Buffer}

theorem evolves_splitLeaf (sound : buffer.Sound) (leaf : NodeId) (cut : Nat) :
    buffer.Evolves (buffer.splitLeaf leaf cut).2 := by
  rcases buffer.splitLeaf_cases leaf with ⟨text, found⟩ | stays
  · have done := (splitLeaf_spec sound.seated found cut).2
    exact ⟨done.grown, ⟨done.wellFormed sound.formed, done.seated⟩,
      (buffer.sameSlots_splitLeaf leaf cut).used⟩
  · rw [stays]
    exact Evolves.refl sound

/-- The buffer with another amount of room for the list of a leaf. -/
def allot (buffer : Buffer) (leaf : NodeId) (capacity : Nat) : Buffer :=
  buffer.modifyAnchors leaf fun list => { list with capacity }

theorem listed_allot (buffer : Buffer) (leaf : NodeId) (capacity : Nat) (node : NodeId) :
    (buffer.allot leaf capacity).listed node = buffer.listed node := by
  refine buffer.listed_change leaf node fun content => ?_
  cases content <;> rfl

theorem evolves_allot (sound : buffer.Sound) (leaf : NodeId) (capacity : Nat) :
    buffer.Evolves (buffer.allot leaf capacity) := by
  have trees : buffer.SameTrees (buffer.allot leaf capacity) :=
    ⟨fun node => view_modifyAnchors _ _ node _, fun node => parent_modifyAnchors _ _ node _⟩
  exact ⟨trees.extends_, ⟨trees.wellFormed sound.formed, sound.seated.grow trees.extends_ rfl rfl
    (buffer.listed_allot leaf capacity)⟩, fun _ => rfl⟩

end Buffer

/-- The slot of a cursor, if it is one of a given buffer. -/
def Cursor.slotIn (id : BufferId) (cursor : Cursor) : Option AnchorId :=
  if cursor.buffer = id then some cursor.anchor else none

theorem Cursor.bind_slotIn_eq_some_iff {id : BufferId} {entry : Option Cursor} {anchor : AnchorId} :
    entry.bind (Cursor.slotIn id) = some anchor ↔ entry = some ⟨id, anchor⟩ := by
  rcases entry with _ | ⟨buffer, slot⟩
  · simp only [Option.bind_none, reduceCtorEq]
  · simp only [Option.bind_some, slotIn, Option.ite_none_right_eq_some, Option.some_inj,
      Cursor.mk.injEq]

/-- A command, a cut of any leaf at any index, or another amount of room for any list. -/
inductive Happening where
  | command (command : Command)
  | cut (buffer : BufferId) (leaf : NodeId) (index : Nat)
  | allot (buffer : BufferId) (leaf : NodeId) (capacity : Nat)
deriving DecidableEq, Repr

namespace Desk

def undergo (desk : Desk) : Happening → Desk
  | .command command => desk.after command
  | .cut id leaf index =>
    { desk with store := desk.store.put id ((desk.store.buffer id).splitLeaf leaf index).2 }
  | .allot id leaf capacity =>
    { desk with store := desk.store.put id ((desk.store.buffer id).allot leaf capacity) }

/-- The desk after happenings that start with nothing. -/
def course (happenings : List Happening) : Desk := happenings.foldl undergo {}

/-- The slots of a buffer that live cursors hold, one for each cursor. -/
def handles (desk : Desk) (id : BufferId) : List AnchorId :=
  desk.cursors.filterMap (·.bind (Cursor.slotIn id))

variable {desk : Desk} {ledger : Ledger}

theorem mem_handles (desk : Desk) (id : BufferId) (anchor : AnchorId) :
    anchor ∈ desk.handles id ↔ ∃ number, desk.cursor? number = some ⟨id, anchor⟩ := by
  rw [handles, List.mem_filterMap]
  simp only [Cursor.bind_slotIn_eq_some_iff, exists_eq_right, List.mem_iff_getElem?, cursor?,
    Option.join_eq_some_iff]

/-- Cursors with numbers of their own hold slots of their own. -/
theorem Agrees.nodup_handles (agrees : desk.Agrees ledger) (id : BufferId) :
    (desk.handles id).Nodup := by
  rw [handles, List.Nodup, List.pairwise_filterMap, List.pairwise_iff_getElem]
  rintro one two oneWithin twoWithin before anchor first _ second rfl
  rw [Cursor.bind_slotIn_eq_some_iff] at first second
  refine Nat.ne_of_lt before (agrees.apart one two ⟨id, anchor⟩ ?_ ?_)
  · rw [cursor?, List.getElem?_eq_getElem oneWithin, first, Option.join_some]
  · rw [cursor?, List.getElem?_eq_getElem twoWithin, second, Option.join_some]

/-! ## One happening -/

/-- What a happening does to cursors: it keeps them, makes one or releases one. -/
inductive Turn (desk : Desk) : Desk → Prop where
  | keeps {store : Store} {ropes : List Rope} (slots : desk.store.SameSlots store) :
      Turn desk { desk with store, ropes }
  | adds {position : Position} (has : desk.store.HasPosition position) :
      Turn desk (desk.addCursor (desk.store.cursorAt position))
  | releases {number : Nat} {cursor : Cursor} (found : desk.cursor? number = some cursor) :
      Turn desk { desk with
        store := desk.store.release cursor, cursors := desk.cursors.set number none }

theorem Turn.stays (desk : Desk) : desk.Turn desk := .keeps (Store.SameSlots.refl desk.store)

theorem turn_onCursor (number : Nat) {change : Cursor → Desk}
    (turns : ∀ cursor, desk.cursor? number = some cursor → desk.Turn (change cursor)) :
    desk.Turn (desk.onCursor number change) :=
  onCursor_cases number (Turn.stays desk) turns

theorem Agrees.turn_seat (agrees : desk.Agrees ledger) {number : Nat} {cursor : Cursor}
    (found : desk.cursor? number = some cursor) (place : Place) :
    desk.Turn { desk with store := desk.store.seat cursor place } := by
  rcases Option.isSome_iff_exists.mp (agrees.live number cursor found) with ⟨old, sits⟩
  exact .keeps (Store.sameSlots_seat sits place)

theorem Agrees.turn_after (agrees : desk.Agrees ledger) (command : Command) :
    desk.Turn (desk.after command) := by
  cases command with
  | newBuffer => exact .keeps desk.store.steps_newBuffer.sameSlots
  | rope id text =>
      rw [after, perform]
      split
      · exact .keeps (desk.store.steps_rope id text).sameSlots
      · exact .stays desk
  | newRope text => exact .keeps (desk.store.steps_newRope text).sameSlots
  | concat first second =>
      exact concat_cases first second (.stays desk) fun left right _ _ _ =>
        .keeps (desk.store.steps_concat left right).sameSlots
  | split number index =>
      exact split_cases number index (.stays desk) fun rope _ _ =>
        .keeps (desk.store.steps_split rope index).sameSlots
  | replace number start stop replacement =>
      exact replace_cases number start stop replacement (.stays desk) fun rope insertion _ _ _ =>
        .keeps (desk.store.steps_replace rope start stop insertion).sameSlots
  | cursor number index =>
      refine cursor_cases number index (.stays desk) fun rope found within => ?_
      rcases agrees.rope found with ⟨shape, shown, _⟩
      rw [shown.length] at within
      exact .adds (agrees.sound.hasPosition_positionAt shown within)
  | copy number => exact turn_onCursor number fun cursor found => .adds (agrees.hasPosition found)
  | read number count =>
      exact turn_onCursor number fun cursor found =>
        .adds (agrees.sound.hasPosition_readFrom (agrees.hasPosition found) count)
  | back number count =>
      exact turn_onCursor number fun cursor found =>
        .adds (agrees.sound.hasPosition_backFrom (agrees.hasPosition found) count)
  | advance number count =>
      exact turn_onCursor number fun cursor found => agrees.turn_seat found _
  | advanceChar number =>
      refine turn_onCursor number fun cursor found => ?_
      simp only [Store.advanceChar]
      split
      · exact agrees.turn_seat found _
      · exact .stays desk
  | retreat number count =>
      exact turn_onCursor number fun cursor found => agrees.turn_seat found _
  | release number => exact turn_onCursor number fun cursor found => .releases found

theorem Agrees.turn_undergo (agrees : desk.Agrees ledger) (happening : Happening) :
    desk.Turn (desk.undergo happening) := by
  cases happening with
  | command command => exact agrees.turn_after command
  | cut id leaf index =>
      exact .keeps (Store.steps_put (Buffer.Steps.none.splitLeaf leaf index)).sameSlots
  | allot id leaf capacity =>
      exact .keeps (Store.sameSlots_put (Buffer.sameSlots_modifyAnchors leaf _))

theorem Agrees.undergo (agrees : desk.Agrees ledger) (happening : Happening) :
    ∃ ledger, (desk.undergo happening).Agrees ledger := by
  cases happening with
  | command command => exact ⟨_, (leads_after agrees command).agrees⟩
  | cut id leaf index =>
      exact ⟨_, (agrees.evolve (Store.evolves_put agrees.sound
        (Buffer.evolves_splitLeaf (agrees.sound id) leaf index)) rfl).agrees⟩
  | allot id leaf capacity =>
      exact ⟨_, (agrees.evolve (Store.evolves_put agrees.sound
        (Buffer.evolves_allot (agrees.sound id) leaf capacity)) rfl).agrees⟩

/-! ## The course of a desk -/

/-- Every slot in use is held by a live cursor, and every other slot waits. -/
structure Accounted (desk : Desk) : Prop where
  agrees : ∃ ledger, desk.Agrees ledger
  held : ∀ cursor, (desk.store.place? cursor).isSome → ∃ number, desk.cursor? number = some cursor
  recycled : ∀ id, (desk.store.buffer id).Recycled

theorem Accounted.empty : Accounted {} :=
  ⟨⟨_, Agrees.empty⟩, fun _ inUse => absurd inUse Bool.false_ne_true, fun _ => Buffer.Recycled.empty⟩

theorem Turn.recycled {next : Desk} (turn : desk.Turn next) (sound : desk.store.Sound)
    (recycled : ∀ id, (desk.store.buffer id).Recycled) (id : BufferId) :
    (next.store.buffer id).Recycled := by
  have put : ∀ {owner : BufferId} {content : Buffer}, content.Recycled →
      ((desk.store.put owner content).buffer id).Recycled := fun waiting =>
    Store.forall_buffer_put (motive := fun _ buffer => buffer.Recycled) waiting recycled id
  cases turn with
  | keeps slots => exact (recycled id).sameSlots (slots id)
  | @adds position has =>
      simp only [addCursor, Store.cursorAt, Store.update_eq]
      exact put ((recycled position.buffer).addAnchor (sound position.buffer).seated position.place)
  | @releases number cursor found =>
      simp only [Store.release, Store.update_eq]
      exact put ((recycled cursor.buffer).releaseAnchor cursor.anchor)

theorem Turn.held {next : Desk} (turn : desk.Turn next) (sound : desk.store.Sound)
    (held : ∀ cursor, (desk.store.place? cursor).isSome →
      ∃ number, desk.cursor? number = some cursor) (cursor : Cursor)
    (inUse : (next.store.place? cursor).isSome) : ∃ number, next.cursor? number = some cursor := by
  cases turn with
  | keeps slots => exact held cursor ((slots cursor.buffer).used cursor.anchor ▸ inUse)
  | @adds position has =>
      rcases Store.cursorAt_spec sound has with ⟨_, _, reseats⟩
      simp only [cursor?_addCursor]
      by_cases new : cursor = (desk.store.cursorAt position).1
      · exact ⟨desk.cursors.length, by rw [if_pos rfl, new]⟩
      · have before := reseats.place cursor
        rw [if_neg new] at before
        rcases held cursor (before ▸ inUse) with ⟨number, found⟩
        exact ⟨number, by rw [if_neg (Nat.ne_of_lt (lt_length_of_cursor? found)), found]⟩
  | @releases number dropped found =>
      have after := (Store.release_spec sound dropped).place cursor
      simp only [after] at inUse
      split at inUse
      · cases inUse
      · next different =>
          rcases held cursor inUse with ⟨other, foundOther⟩
          refine ⟨other, ?_⟩
          rw [cursor?_set, if_neg, foundOther]
          rintro rfl
          exact different (Option.some_inj.mp (foundOther.symm.trans found))

theorem Accounted.undergo (accounted : desk.Accounted) (happening : Happening) :
    (desk.undergo happening).Accounted := by
  rcases accounted with ⟨⟨ledger, agrees⟩, held, recycled⟩
  have turn := agrees.turn_undergo happening
  exact ⟨agrees.undergo happening, turn.held agrees.sound held, turn.recycled agrees.sound recycled⟩

theorem Accounted.foldl (accounted : desk.Accounted) (happenings : List Happening) :
    (happenings.foldl Desk.undergo desk).Accounted := by
  induction happenings generalizing desk with
  | nil => exact accounted
  | cons happening rest inductionHypothesis => exact inductionHypothesis (accounted.undergo happening)

theorem course_accounted (happenings : List Happening) : (course happenings).Accounted :=
  Accounted.empty.foldl happenings

/-- Whatever happens to a desk, and in any order, the slots in use are those of the live cursors,
and no two cursors share one.  Every live cursor is in the list of the leaf where it sits, at an
offset that the leaf has.  The slots that wait are the others, each waiting once, and the
number of anchors in use is the number of live cursors.  So a cut of a leaf moves the anchors
that sit in it, and no others, to the half with their character, where each of them is listed
once.  It counts as a revision if it moved an anchor, and only then. -/
theorem cursors_are_never_forgotten (happenings : List Happening) (id : BufferId) :
    let desk := course happenings
    let buffer := desk.store.buffer id
    (desk.handles id).Nodup ∧
      (∀ anchor, anchor ∈ desk.handles id ↔ (buffer.anchor? anchor).isSome) ∧
      (∀ anchor ∈ desk.handles id, ∃ place text, buffer.anchor? anchor = some place ∧
        buffer.view place.leaf = some (.leaf text none {}) ∧ place.offset ≤ text.size ∧
        anchor ∈ buffer.listed place.leaf) ∧
      buffer.free.Nodup ∧
      (∀ anchor, anchor ∈ buffer.free ↔
        anchor < buffer.anchors.size ∧ anchor ∉ desk.handles id) ∧
      buffer.liveAnchors = (desk.handles id).length ∧
      ∀ leaf text cut, buffer.view leaf = some (.leaf text none {}) →
        (buffer.splitLeaf leaf cut).1 = (buffer.nodeCount, buffer.nodeCount + 1) ∧
          buffer.Rehouses (buffer.splitLeaf leaf cut).2 leaf cut := by
  intro desk buffer
  rcases course_accounted happenings with ⟨⟨ledger, agrees⟩, held, recycled⟩
  have seated : buffer.Seated := (agrees.sound id).seated
  have distinct := agrees.nodup_handles id
  have used : ∀ anchor, anchor ∈ desk.handles id ↔ (buffer.anchor? anchor).isSome := by
    intro anchor
    rw [mem_handles]
    exact ⟨fun ⟨number, found⟩ => agrees.live number ⟨id, anchor⟩ found, held ⟨id, anchor⟩⟩
  refine ⟨distinct, used, ?_, seated.distinct, ?_, Buffer.liveAnchors_eq_length distinct used, ?_⟩
  · intro anchor member
    rcases Option.isSome_iff_exists.mp ((used anchor).mp member) with ⟨place, sits⟩
    rcases seated.placed anchor place sits with ⟨text, found, within⟩
    exact ⟨place, text, sits, found, within, seated.listed anchor place sits⟩
  · intro anchor
    rw [(recycled id).mem_free_iff seated, used, Option.not_isSome_iff_eq_none]
  · intro leaf text cut found
    exact ⟨(Buffer.splitLeaf_spec seated found cut).1, Buffer.rehouses_splitLeaf seated found cut⟩

/-- A slot that is used again is listed twice by its leaf, and once by the half that it goes to. -/
example :
    let desk := course [.command (.newRope "abcd"), .command (.cursor 0 1), .command (.release 0),
      .command (.cursor 0 3)]
    let buffer := desk.store.buffer 0
    desk.handles 0 = [0] ∧ buffer.listed 0 = #[0, 0] ∧ (buffer.splitLeaf 0 2).2.listed 1 = #[] ∧
      (buffer.splitLeaf 0 2).2.listed 2 = #[0] := by
  decide +kernel

end Desk

end Reparse
