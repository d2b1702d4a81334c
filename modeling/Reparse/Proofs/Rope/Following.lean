import Reparse.Proofs.Rope.Persistence
import Reparse.Proofs.Rope.Tracking

/-!
# Cursors follow their character

A scene is a desk with one rope that is called the document.  The document is only
ever edited at its newest version.  What is put in is made from scratch in the
buffer of the document, or is a rope of another buffer.  Between edits any commands
may be given, as long as they do not cut or join trees of the document's buffer:
cursors may be made anywhere, also in superseded versions and in what was cut out,
and may be copied, moved and released.

One cursor is followed through such a history.  Its fate is reckoned from the
numbers of the edits alone.  While its character is there the cursor is in front of
it, in the newest version.  Once the character was cut out the cursor stays in front
of it among the characters that the same edit cut out, and never comes back.
-/

namespace Reparse

/-- A text made from scratch, in one piece or joined from several. -/
inductive Material where
  | text (chars : String)
  | joined (first second : Material)
deriving DecidableEq, Repr

namespace Material

def chars : Material → List Char
  | .text chars => chars.toList
  | .joined first second => first.chars ++ second.chars

end Material

namespace Store

/-- Make a text in a buffer. -/
def build (store : Store) (id : BufferId) : Material → Rope × Store
  | .text chars => store.rope id chars
  | .joined first second =>
    let (left, withLeft) := store.build id first
    let (right, withRight) := withLeft.build id second
    withRight.concat left right

end Store

/-- What an edit did: a range, the number of characters put in, and what was cut out. -/
structure Change where
  start : Nat
  stop : Nat
  inserted : Nat
  removed : Rope
deriving DecidableEq, Repr

/-- A character of the document, at an index; or one cut out, at an index of what the
edit cut out. -/
inductive Fate where
  | kept (index : Nat)
  | removed (rope : Rope) (index : Nat)
deriving DecidableEq, Repr

namespace Fate

/-- What an edit does to a character of the document.  No edit reaches one cut out before. -/
def after : Fate → Change → Fate
  | .kept index, change =>
    match Buffer.land change.start change.stop change.inserted index with
    | .kept moved => .kept moved
    | .removed offset => .removed change.removed offset
  | .removed rope index, _ => .removed rope index

end Fate

/-- A desk with a document, and the changes made to the document. -/
structure Scene where
  desk : Desk
  document : Rope
  changes : List Change := []
deriving Repr

/-- An edit of the document, or a command on something else.  The text put in is made for
the edit, or is that of a rope of the desk. -/
inductive Event where
  | edit (start stop : Nat) (insertion : Material)
  | paste (start stop rope : Nat)
  | command (command : Command)
deriving DecidableEq, Repr

namespace Command

/-- The command cuts or joins a tree of the buffer. -/
def reaches (desk : Desk) (id : BufferId) : Command → Bool
  | .concat number _ => (desk.ropes[number]?).any (·.buffer == id)
  | .split number _ => (desk.ropes[number]?).any (·.buffer == id)
  | .replace number _ _ _ => (desk.ropes[number]?).any (·.buffer == id)
  | _ => false

/-- The command moves or releases the cursor of the number. -/
def disturbs (followed : Option Nat) : Command → Bool
  | .advance number _ => followed == some number
  | .advanceChar number => followed == some number
  | .retreat number _ => followed == some number
  | .release number => followed == some number
  | _ => false

end Command

namespace Scene

/-- A desk at which a document is begun. -/
def start (desk : Desk) (id : BufferId) (text : String) : Scene :=
  let (document, store) := desk.store.rope id text
  { desk := { desk with store, ropes := desk.ropes ++ [document] }, document }

def text (scene : Scene) : String := scene.desk.store.text scene.document

/-- Replace a range of the document by a rope. -/
def replace (scene : Scene) (start stop : Nat) (insertion : Rope) : Scene :=
  match scene.desk.store.replace scene.document start stop insertion with
  | (.error _, store) => { scene with desk := { scene.desk with store } }
  | (.ok edit, store) =>
    { desk := { scene.desk with store, ropes := scene.desk.ropes ++ [edit.replaced, edit.removed] }
      document := edit.replaced
      changes := scene.changes ++
        [⟨start, stop, scene.desk.store.length insertion, edit.removed⟩] }

/-- The scene after an event.  Commands that would reach trees of the document's buffer, or
disturb the cursor that is followed, are passed over. -/
def after (followed : Option Nat) (scene : Scene) : Event → Scene
  | .edit start stop insertion =>
    let (rope, store) := scene.desk.store.build scene.document.buffer insertion
    let desk := { scene.desk with store, ropes := scene.desk.ropes ++ [rope] }
    { scene with desk }.replace start stop rope
  | .paste start stop number =>
    match scene.desk.ropes[number]? with
    | some rope =>
      if rope.buffer = scene.document.buffer then scene else scene.replace start stop rope
    | none => scene
  | .command command =>
    if command.reaches scene.desk scene.document.buffer || command.disturbs followed then scene
    else { scene with desk := scene.desk.after command }

def run (followed : Option Nat) (scene : Scene) (events : List Event) : Scene :=
  events.foldl (after followed) scene

/-! ## The invariant of a scene -/

/-- The document has a shape, which is a current tree. -/
structure Holds (scene : Scene) (shape : Shape) : Prop where
  agrees : ∃ ledger, scene.desk.Agrees ledger
  root : shape.root = scene.document.root
  current : (scene.desk.store.buffer scene.document.buffer).Current shape

/-- A tree of the document's buffer holds a character, and a cursor stays with it. -/
structure Stays (scene : Scene) (cursor : Cursor) (host : Shape) (index : Nat) (char : Char) :
    Prop where
  buffer : cursor.buffer = scene.document.buffer
  current : (scene.desk.store.buffer scene.document.buffer).Current host
  seat : ∃ place, scene.desk.store.place? cursor = some place ∧ host.spot false index = some place
  char : host.text[index]? = some char

/-- The cursor of a number is where its fate says. -/
def Follows (scene : Scene) (shape : Shape) (number : Nat) (cursor : Cursor) (char : Char)
    (fate : Fate) : Prop :=
  scene.desk.cursor? number = some cursor ∧
    match fate with
    | .kept index => scene.Stays cursor shape index char
    | .removed rope index => ∃ host : Shape, rope = ⟨scene.document.buffer, host.root⟩ ∧
        host.root ≠ shape.root ∧ scene.Stays cursor host index char

end Scene

namespace Store

variable {store : Store}

theorem build_spec (sound : store.Sound) {id : BufferId} (within : id < store.buffers.size)
    (material : Material) :
    ∃ shape, store.Adds (store.build id material).2 id (store.build id material).1 shape
      material.chars := by
  induction material generalizing store with
  | text chars => exact ⟨_, adds_rope sound within chars⟩
  | joined first second firstHypothesis secondHypothesis =>
      rcases firstHypothesis sound within with ⟨left, leftDone⟩
      have leftSound := (leftDone.evolves sound).sound
      rcases secondHypothesis leftSound (leftDone.size ▸ within) with ⟨right, rightDone⟩
      have rightSound := (rightDone.evolves leftSound).sound
      simp only [build]
      generalize store.build id first = builtLeft at leftDone rightDone leftSound rightSound ⊢
      generalize builtLeft.2.build id second = builtRight at rightDone rightSound ⊢
      rcases builtLeft with ⟨⟨leftBuffer, leftRoot⟩, withLeft⟩
      rcases builtRight with ⟨⟨rightBuffer, rightRoot⟩, withRight⟩
      rcases leftDone with ⟨rfl, rfl, leftAdds, leftElsewhere, leftSize⟩
      rcases rightDone with ⟨sameBuffer, rfl, rightAdds, rightElsewhere, rightSize⟩
      simp only at *
      subst sameBuffer
      rcases rightAdds.spares left leftAdds.current List.not_mem_nil with ⟨leftStays, apart⟩
      rcases Buffer.concat_current (rightSound rightBuffer) leftStays rightAdds.current.offers apart
        with
        ⟨whole, after, becomes, evolves, current, text, spares, anchors, _, _⟩
      have inBounds : rightBuffer < withRight.buffers.size := by
        rw [rightSize, leftSize]
        exact within
      simp only [concat, piece, if_pos, update_eq, becomes]
      refine ⟨whole, rfl, rfl, ?_, ?_, ?_⟩
      · rw [buffer_put withRight inBounds, if_pos rfl]
        refine ⟨(leftAdds.evolves.trans rightAdds.evolves).trans evolves, current, ?_, ?_, ?_⟩
        · rw [text, leftAdds.text, rightAdds.text]
          rfl
        · intro other otherCurrent none
          rcases leftAdds.spares other otherCurrent none with ⟨onLeft, notLeft⟩
          rcases rightAdds.spares other onLeft List.not_mem_nil with ⟨onRight, notRight⟩
          refine spares other onRight ?_
          rw [Buffer.Piece.roots, List.mem_pair, not_or]
          exact ⟨fun same => notLeft (List.mem_singleton.mpr same),
            fun same => notRight (List.mem_singleton.mpr same)⟩
        · intro anchor
          rw [anchors, rightAdds.anchor, leftAdds.anchor]
      · intro other different
        rw [buffer_put withRight inBounds, if_neg different, rightElsewhere other different,
          leftElsewhere other different]
      · rw [put, Array.size_setIfInBounds, rightSize, leftSize]

end Store

namespace Desk

/-! ## Commands that leave the document alone -/

/-- Trees of a buffer stay current, and cursors of the buffer stay where they are unless
they are disturbed. -/
structure Keeps (desk next : Desk) (id : BufferId) (disturbed : Nat → Bool) : Prop where
  current : ∀ shape, (desk.store.buffer id).Current shape → (next.store.buffer id).Current shape
  cursor : ∀ number cursor, disturbed number = false → desk.cursor? number = some cursor →
    cursor.buffer = id → next.cursor? number = some cursor ∧
      next.store.place? cursor = desk.store.place? cursor

variable {desk : Desk} {ledger : Ledger} {id : BufferId} {disturbed : Nat → Bool}

theorem keeps_of_buffer {next : Desk} (same : next.store.buffer id = desk.store.buffer id)
    (cursors : next.cursors = desk.cursors) : desk.Keeps next id disturbed := by
  constructor
  · intro shape current
    rw [same]
    exact current
  · intro number cursor _ held inBuffer
    refine ⟨?_, ?_⟩
    · rw [cursor?, cursors]
      exact held
    · rw [Store.place?, inBuffer, same, Store.place?, inBuffer]

theorem keeps_refl (desk : Desk) : desk.Keeps desk id disturbed := keeps_of_buffer rfl rfl

theorem keeps_rope (agrees : desk.Agrees ledger) (other : BufferId) (text : String)
    (ropes : List Rope) :
    desk.Keeps { desk with store := (desk.store.rope other text).2, ropes } id disturbed := by
  rcases Nat.lt_or_ge other desk.store.buffers.size with within | beyond
  · have content : ((desk.store.rope other text).2).buffer id =
        if id = other then ((desk.store.buffer other).addLeaf text.toList.toArray).2
        else desk.store.buffer id := by
      simp only [Store.rope, Store.update_eq, Store.buffer_put _ within]
    by_cases same : id = other
    · subst same
      rw [if_pos rfl] at content
      have adds := Buffer.adds_addLeaf (agrees.sound id) text.toList
      constructor
      · intro shape current
        simp only [content]
        exact (adds.spares shape current List.not_mem_nil).1
      · intro number cursor _ held inBuffer
        refine ⟨held, ?_⟩
        rw [Store.place?, inBuffer]
        simp only [content]
        rw [adds.anchor, Store.place?, inBuffer]
    · rw [if_neg same] at content
      exact keeps_of_buffer content rfl
  · have stays : (desk.store.rope other text).2 = desk.store := by
      simp only [Store.rope, Store.update_eq, Store.put_of_le _ beyond]
    rw [stays]
    exact keeps_of_buffer rfl rfl

theorem keeps_addCursor (agrees : desk.Agrees ledger) {position : Position}
    (has : desk.store.HasPosition position) :
    desk.Keeps (desk.addCursor (desk.store.cursorAt position)) id disturbed := by
  rcases Store.cursorAt_spec agrees.sound has with ⟨vacant, _, reseats⟩
  constructor
  · exact fun shape current => current.sameTrees (reseats.trees id)
  · intro number cursor _ held _
    refine ⟨?_, ?_⟩
    · rw [cursor?_addCursor, if_neg (Nat.ne_of_lt (lt_length_of_cursor? held))]
      exact held
    · refine (reseats.place cursor).trans (if_neg ?_)
      rintro rfl
      have inUse := agrees.live number _ held
      rw [vacant] at inUse
      cases inUse

theorem keeps_seat (agrees : desk.Agrees ledger) {number : Nat} {moved : Cursor}
    (found : desk.cursor? number = some moved) {place : Place}
    (has : desk.store.HasPosition ⟨moved.buffer, place⟩) (disturbs : disturbed number = true) :
    desk.Keeps { desk with store := desk.store.seat moved place } id disturbed := by
  rcases Option.isSome_iff_exists.mp (agrees.live number moved found) with ⟨old, sits⟩
  have reseats := Store.seat_spec agrees.sound sits has
  constructor
  · exact fun shape current => current.sameTrees (reseats.trees id)
  · intro other cursor quiet held _
    refine ⟨held, (reseats.place cursor).trans (if_neg ?_)⟩
    rintro rfl
    rw [agrees.apart other number _ held found, disturbs] at quiet
    cases quiet

theorem keeps_release (agrees : desk.Agrees ledger) {number : Nat} {dropped : Cursor}
    (found : desk.cursor? number = some dropped) (disturbs : disturbed number = true) :
    desk.Keeps { desk with
      store := desk.store.release dropped, cursors := desk.cursors.set number none } id
      disturbed := by
  have reseats := Store.release_spec agrees.sound dropped
  constructor
  · exact fun shape current => current.sameTrees (reseats.trees id)
  · intro other cursor quiet held _
    have different : number ≠ other := by
      rintro rfl
      rw [disturbs] at quiet
      cases quiet
    refine ⟨?_, (reseats.place cursor).trans (if_neg ?_)⟩
    · rw [cursor?, List.getElem?_set_ne different]
      exact held
    · rintro rfl
      exact different (agrees.apart other number _ held found).symm

theorem keeps_onCursor (number : Nat) {change : Cursor → Desk}
    (keeps : ∀ cursor, desk.cursor? number = some cursor → desk.Keeps (change cursor) id disturbed) :
    desk.Keeps (desk.onCursor number change) id disturbed :=
  onCursor_cases (motive := fun next => desk.Keeps next id disturbed) number (keeps_refl desk) keeps

/-- Trees of one buffer are not changed by an operation on another one. -/
theorem keeps_put {other : BufferId} (different : other ≠ id) (content : Buffer)
    (ropes : List Rope) :
    desk.Keeps { desk with store := desk.store.put other content, ropes } id disturbed := by
  refine keeps_of_buffer ?_ rfl
  rcases Nat.lt_or_ge other desk.store.buffers.size with within | beyond
  · rw [Store.buffer_put _ within, if_neg different.symm]
  · rw [Store.put_of_le _ beyond]

/-- Where a number stands for no rope of a buffer, a rope of that number is one of another buffer. -/
theorem elsewhere_of_quiet {number : Nat} {rope : Rope}
    (quiet : (desk.ropes[number]?).any (·.buffer == id) = false)
    (found : desk.ropes[number]? = some rope) : rope.buffer ≠ id := by
  rw [found, Option.any_some, beq_eq_false_iff_ne] at quiet
  exact quiet

theorem keeps_split (desk : Desk) {number index : Nat}
    (quiet : (Command.split number index).reaches desk id = false) :
    desk.Keeps (desk.after (.split number index)) id disturbed := by
  refine split_cases (motive := fun next => desk.Keeps next id disturbed) number index
    (keeps_refl desk) fun rope ropes found => ?_
  simp only [Store.split, Store.update_eq]
  exact keeps_put (elsewhere_of_quiet quiet found) _ ropes

theorem keeps_replace (desk : Desk) {number start stop replacement : Nat}
    (quiet : (Command.replace number start stop replacement).reaches desk id = false) :
    desk.Keeps (desk.after (.replace number start stop replacement)) id disturbed := by
  refine replace_cases (motive := fun next => desk.Keeps next id disturbed) number start stop
    replacement (keeps_refl desk) fun rope insertion ropes found _ => ?_
  simp only [Store.replace, Store.update_eq]
  exact keeps_put (elsewhere_of_quiet quiet found) _ ropes

theorem keeps_concat (desk : Desk) {first second : Nat}
    (quiet : (Command.concat first second).reaches desk id = false) :
    desk.Keeps (desk.after (.concat first second)) id disturbed := by
  refine concat_cases (motive := fun next => desk.Keeps next id disturbed) first second
    (keeps_refl desk) fun left right ropes found _ => ?_
  simp only [Store.concat, Store.update_eq]
  exact keeps_put (elsewhere_of_quiet quiet found) _ ropes

/-- A command that does not reach the buffer keeps its trees, and the cursors it does not
disturb. -/
theorem keeps_after (agrees : desk.Agrees ledger) {command : Command}
    (quiet : command.reaches desk id = false) :
    desk.Keeps (desk.after command) id fun number => command.disturbs (some number) := by
  cases command with
  | newBuffer => exact keeps_of_buffer (desk.store.buffer_newBuffer id) rfl
  | rope other text =>
      rw [after, perform]
      split
      · exact keeps_rope agrees other text _
      · exact keeps_refl desk
  | newRope text =>
      have agrees' := (leads_after agrees .newBuffer).agrees
      have first : desk.Keeps (desk.after .newBuffer) id
          fun number => (Command.newRope text).disturbs (some number) :=
        keeps_of_buffer (desk.store.buffer_newBuffer id) rfl
      have second : (desk.after .newBuffer).Keeps (desk.after (.newRope text)) id
          fun number => (Command.newRope text).disturbs (some number) := keeps_rope agrees'
        desk.store.newBuffer.1 text (desk.ropes ++ [(desk.store.newRope text).1])
      constructor
      · exact fun shape current => second.current shape (first.current shape current)
      · intro number cursor quiet held inBuffer
        rcases first.cursor number cursor quiet held inBuffer with ⟨heldFirst, sameFirst⟩
        rcases second.cursor number cursor quiet heldFirst inBuffer with ⟨heldSecond, sameSecond⟩
        exact ⟨heldSecond, sameSecond.trans sameFirst⟩
  | concat first second => exact keeps_concat desk quiet
  | split number index => exact keeps_split desk quiet
  | replace number start stop replacement => exact keeps_replace desk quiet
  | cursor number index =>
      refine cursor_cases (motive := fun next => desk.Keeps next id _) number index
        (keeps_refl desk) fun rope found within => ?_
      rcases agrees.rooted rope (List.mem_of_getElem? found) with ⟨shape, shown⟩
      rw [shown.length] at within
      exact keeps_addCursor agrees (agrees.sound.hasPosition_positionAt shown within)
  | copy number =>
      refine keeps_onCursor number fun cursor found => ?_
      exact keeps_addCursor agrees (agrees.hasPosition found)
  | read number count =>
      refine keeps_onCursor number fun cursor found => ?_
      exact keeps_addCursor agrees (agrees.sound.hasPosition_readFrom (agrees.hasPosition found) count)
  | back number count =>
      refine keeps_onCursor number fun cursor found => ?_
      exact keeps_addCursor agrees (agrees.sound.hasPosition_backFrom (agrees.hasPosition found) count)
  | advance number count =>
      refine keeps_onCursor number fun cursor found => ?_
      exact keeps_seat agrees found
        (agrees.sound.hasPosition_readFrom (agrees.hasPosition found) count) (beq_self_eq_true _)
  | advanceChar number =>
      refine keeps_onCursor number fun cursor found => ?_
      simp only [Store.advanceChar]
      split
      · exact keeps_seat agrees found
          (agrees.sound.hasPosition_readFrom (agrees.hasPosition found) 1) (beq_self_eq_true _)
      · exact keeps_refl desk
  | retreat number count =>
      refine keeps_onCursor number fun cursor found => ?_
      exact keeps_seat agrees found
        (agrees.sound.hasPosition_backFrom (agrees.hasPosition found) count) (beq_self_eq_true _)
  | release number =>
      refine keeps_onCursor number fun cursor found => ?_
      exact keeps_release agrees found (beq_self_eq_true _)

end Desk

namespace Scene

open Buffer (land)

variable {scene : Scene} {shape : Shape}

/-! ## One event -/

/-- What an event does to a scene: the document is current again, some changes were made,
and cursors that are followed go where those changes send them. -/
structure Leads (scene next : Scene) (shape : Shape) (followed : Option Nat) (changes : List Change) :
    Prop where
  holds : ∃ shape', next.Holds shape' ∧ ∀ number cursor char fate, followed = some number →
    scene.Follows shape number cursor char fate →
    next.Follows shape' number cursor char (changes.foldl Fate.after fate)
  changes : next.changes = scene.changes ++ changes

theorem Holds.shows (holds : scene.Holds shape) : scene.desk.store.Shows scene.document shape :=
  ⟨holds.root, holds.current.shown⟩

theorem Holds.leads_refl (holds : scene.Holds shape) (followed : Option Nat) :
    scene.Leads scene shape followed [] :=
  ⟨⟨shape, holds, fun _ _ _ _ _ follows => follows⟩, (List.append_nil _).symm⟩

/-- A scene whose document is the same tree in a desk that keeps it. -/
theorem Holds.leads_of_keeps (holds : scene.Holds shape) {desk : Desk} {followed : Option Nat}
    {disturbed : Nat → Bool} (agrees : ∃ ledger, desk.Agrees ledger)
    (keeps : scene.desk.Keeps desk scene.document.buffer disturbed)
    (quiet : ∀ number, followed = some number → disturbed number = false) :
    scene.Leads { scene with desk } shape followed [] := by
  refine ⟨⟨shape, ⟨agrees, holds.root, keeps.current shape holds.current⟩, ?_⟩,
    (List.append_nil _).symm⟩
  intro number cursor char fate same follows
  have stays : ∀ host index, scene.Stays cursor host index char →
      desk.cursor? number = some cursor ∧
        ({ scene with desk } : Scene).Stays cursor host index char := by
    intro host index stay
    rcases keeps.cursor number cursor (quiet number same) follows.1 stay.buffer with ⟨held, place⟩
    refine ⟨held, stay.buffer, keeps.current host stay.current, ?_, stay.char⟩
    simp only [place]
    exact stay.seat
  cases fate with
  | kept index => exact stays shape index follows.2
  | removed rope index =>
      rcases follows.2 with ⟨host, isHost, different, stay⟩
      exact ⟨(stays host index stay).1, host, isHost, different, (stays host index stay).2⟩

/-- Where an edit has put the cursor of a place that it moved. -/
theorem place?_put {store : Store} {id : BufferId} (within : id < store.buffers.size)
    {content : Buffer} {move : Place → Place}
    (anchors : ∀ anchor, content.anchor? anchor = ((store.buffer id).anchor? anchor).map move)
    {cursor : Cursor} (inBuffer : cursor.buffer = id) :
    (store.put id content).place? cursor = (store.place? cursor).map move := by
  rw [Store.place?, Store.place?, inBuffer, Store.buffer_put _ within, if_pos rfl, anchors]

/-- An edit by a rope of another buffer, or by a current tree other than the document.  The
characters that are put in are not those that a followed cursor is at. -/
theorem Holds.replace (holds : scene.Holds shape) {insertion : Rope} {other : Shape}
    (shown : scene.desk.store.Shows insertion other)
    (fresh : insertion.buffer = scene.document.buffer →
      (scene.desk.store.buffer scene.document.buffer).Current other ∧ other.root ≠ shape.root)
    (start stop : Nat) :
    ∃ shape' changes, (scene.replace start stop insertion).Holds shape' ∧
      (scene.replace start stop insertion).changes = scene.changes ++ changes ∧
      ∀ number cursor char fate, scene.Follows shape number cursor char fate →
        (∀ index, fate ≠ .removed insertion index) →
        (scene.replace start stop insertion).Follows shape' number cursor char
          (changes.foldl Fate.after fate) := by
  rcases holds.agrees with ⟨ledger, agrees⟩
  by_cases inverted : stop < start
  · have stays : scene.replace start stop insertion = scene := by
      rw [Scene.replace, Store.replace_inverted inverted]
    rw [stays]
    exact ⟨shape, [], holds, (List.append_nil _).symm, fun _ _ _ _ follows _ => follows⟩
  have ordered := Nat.le_of_not_lt inverted
  by_cases beyond : shape.text.length < stop
  · have stays : scene.replace start stop insertion = scene := by
      rw [Scene.replace, Store.replace_outOfBounds holds.shows ordered beyond]
    rw [stays]
    exact ⟨shape, [], holds, (List.append_nil _).symm, fun _ _ _ _ follows _ => follows⟩
  have within := Nat.le_of_not_lt beyond
  rcases Store.replace_current agrees.sound holds.root holds.current shown fresh ordered within with
    ⟨replaced, removed, edited, move, becomes, done⟩
  have inBounds := holds.shows.lt_size
  have content : (scene.desk.store.put scene.document.buffer edited).buffer scene.document.buffer =
      edited := by
    rw [Store.buffer_put _ inBounds, if_pos rfl]
  let change : Change := ⟨start, stop, scene.desk.store.length insertion,
    ⟨scene.document.buffer, removed.root⟩⟩
  have landing : land change.start change.stop change.inserted = land start stop other.text.length := by
    simp only [change, shown.length]
  have agreesAfter := (agrees.addRopes (Store.evolves_put agrees.sound done.evolves)
    Array.size_setIfInBounds [(⟨scene.document.buffer, replaced.root⟩, replaced),
      (⟨scene.document.buffer, removed.root⟩, removed)] (by
    intro pair member
    rcases List.mem_pair.mp member with rfl | rfl
    · exact Store.shows_put inBounds done.replacedCurrent.shown
    · exact Store.shows_put inBounds done.removedCurrent.shown)).agrees
  simp only [Scene.replace, becomes]
  refine ⟨replaced, [change], ⟨⟨_, agreesAfter⟩, rfl, ?_⟩, rfl, ?_⟩
  · simp only [content]
    exact done.replacedCurrent
  · intro number cursor char fate follows avoids
    cases fate with
    | kept index =>
        rcases follows with ⟨held, stay⟩
        rcases stay.seat with ⟨place, sits, spot⟩
        have sitsAfter := place?_put inBounds done.anchor stay.buffer
        rw [sits, Option.map_some] at sitsAfter
        have moved := done.spot false index place spot
        have text := Buffer.getElem?_land shape.text other.text ordered within index
        rw [← done.replacedText, ← done.removedText, stay.char] at text
        refine ⟨held, ?_⟩
        simp only [List.foldl_cons, List.foldl_nil, Fate.after, landing]
        cases landed : land start stop other.text.length index with
        | kept now =>
            simp only [landed] at moved text ⊢
            refine ⟨stay.buffer, ?_, ⟨move place, sitsAfter, moved⟩, text⟩
            simp only [content]
            exact done.replacedCurrent
        | removed offset =>
            simp only [landed] at moved text ⊢
            refine ⟨removed, rfl, done.different.symm, stay.buffer, ?_, ⟨move place, sitsAfter, moved⟩,
              text⟩
            simp only [content]
            exact done.removedCurrent
    | removed rope index =>
        rcases follows with ⟨held, host, rfl, different, stay⟩
        rcases stay.seat with ⟨place, sits, spot⟩
        have sitsAfter := place?_put inBounds done.anchor stay.buffer
        have inHost := Shape.leaf_mem_of_spot spot
        rw [sits, Option.map_some, done.fixed place (stay.current.shown.lt_nodeCount inHost)
          (stay.current.apart holds.current different inHost)] at sitsAfter
        have notUsed : host.root ∉ shape.root ::
            (if insertion.buffer = scene.document.buffer then [insertion.root] else []) := by
          rw [List.mem_cons, not_or]
          refine ⟨different, ?_⟩
          split
          · next sameBuffer =>
              intro isInsertion
              refine avoids index (congrArg (Fate.removed · index) ?_)
              rw [← sameBuffer, List.mem_singleton.mp isInsertion]
          · exact List.not_mem_nil
        rcases done.spares host stay.current notUsed with ⟨hostStays, notNew⟩
        refine ⟨held, host, rfl, fun isReplaced => notNew ?_, stay.buffer, ?_, ⟨place, sitsAfter, spot⟩,
          stay.char⟩
        · rw [isReplaced]
          exact List.mem_cons_self
        · simp only [content]
          exact hostStays

theorem Holds.leads_edit (holds : scene.Holds shape) (followed : Option Nat) (start stop : Nat)
    (insertion : Material) :
    ∃ changes, scene.Leads (scene.after followed (.edit start stop insertion)) shape followed changes := by
  rcases holds.agrees with ⟨ledger, agrees⟩
  have inBounds := holds.shows.lt_size
  rcases Store.build_spec agrees.sound inBounds insertion with ⟨made, done⟩
  rw [after]
  simp only
  generalize scene.desk.store.build scene.document.buffer insertion = built at done ⊢
  rcases built with ⟨rope, store⟩
  simp only at done
  let prepared : Scene :=
    { scene with desk := { scene.desk with store, ropes := scene.desk.ropes ++ [rope] } }
  have madeShown : store.Shows rope made := ⟨done.root, done.buffer ▸ done.adds.current.shown⟩
  have spared : ∀ other, (scene.desk.store.buffer scene.document.buffer).Current other →
      (store.buffer scene.document.buffer).Current other ∧ other.root ≠ rope.root := by
    intro other current
    rcases done.adds.spares other current List.not_mem_nil with ⟨stays, notMade⟩
    exact ⟨stays, fun same => notMade (List.mem_singleton.mpr (same.trans done.root.symm))⟩
  have places : ∀ cursor : Cursor, cursor.buffer = scene.document.buffer →
      store.place? cursor = scene.desk.store.place? cursor := by
    intro cursor inBuffer
    rw [Store.place?, Store.place?, inBuffer, done.adds.anchor]
  have stays : ∀ cursor host index char, scene.Stays cursor host index char →
      prepared.Stays cursor host index char := by
    intro cursor host index char stay
    refine ⟨stay.buffer, (spared host stay.current).1, ?_, stay.char⟩
    rcases stay.seat with ⟨place, sits, spot⟩
    exact ⟨place, (places cursor stay.buffer).trans sits, spot⟩
  have preparedHolds : prepared.Holds shape := by
    refine ⟨⟨_, (agrees.addRopes (done.evolves agrees.sound) (done.size.trans agrees.buffers)
      [(rope, made)] ?_).agrees⟩, holds.root, (spared shape holds.current).1⟩
    intro pair member
    rw [List.mem_singleton.mp member]
    exact madeShown
  have carried : ∀ number cursor char fate, scene.Follows shape number cursor char fate →
      prepared.Follows shape number cursor char fate ∧
        ∀ removed index, fate = .removed removed index → removed.root ≠ rope.root := by
    intro number cursor char fate follows
    cases fate with
    | kept index =>
        refine ⟨⟨follows.1, stays cursor shape index char follows.2⟩, ?_⟩
        intro removed index impossible
        cases impossible
    | removed removed index =>
        rcases follows with ⟨held, host, rfl, different, stay⟩
        refine ⟨⟨held, host, rfl, different, stays cursor host index char stay⟩, ?_⟩
        rintro _ _ ⟨⟩
        exact (spared host stay.current).2
  have notDocument : made.root ≠ shape.root := fun same =>
    (spared shape holds.current).2 (same.symm.trans done.root)
  rcases preparedHolds.replace madeShown (fun _ => ⟨done.adds.current, notDocument⟩) start stop with
    ⟨shape', changes, holdsAfter, changesAfter, followsAfter⟩
  refine ⟨changes, ⟨shape', holdsAfter, ?_⟩, changesAfter⟩
  intro number cursor char fate _ follows
  rcases carried number cursor char fate follows with ⟨onward, avoids⟩
  exact followsAfter number cursor char fate onward fun index same => avoids rope index same rfl

/-- Any event leads from a scene that holds to another one. -/
theorem Holds.leads_after (holds : scene.Holds shape) (followed : Option Nat) (event : Event) :
    ∃ changes, scene.Leads (scene.after followed event) shape followed changes := by
  cases event with
  | edit start stop insertion => exact holds.leads_edit followed start stop insertion
  | paste start stop number =>
      rw [after]
      cases found : scene.desk.ropes[number]? with
      | none => exact ⟨[], holds.leads_refl followed⟩
      | some insertion =>
          by_cases sameBuffer : insertion.buffer = scene.document.buffer
          · simp only [if_pos sameBuffer]
            exact ⟨[], holds.leads_refl followed⟩
          · simp only [if_neg sameBuffer]
            rcases holds.agrees with ⟨ledger, agrees⟩
            rcases agrees.rooted insertion (List.mem_of_getElem? found) with ⟨other, shown⟩
            rcases holds.replace shown (fun same => absurd same sameBuffer) start stop with
              ⟨shape', changes, holdsAfter, changesAfter, followsAfter⟩
            refine ⟨changes, ⟨shape', holdsAfter, ?_⟩, changesAfter⟩
            intro numbered cursor char fate _ follows
            refine followsAfter numbered cursor char fate follows ?_
            rintro index rfl
            rcases follows.2 with ⟨host, isHost, _⟩
            exact sameBuffer (by rw [isHost])
  | command command =>
      rw [after]
      split
      · exact ⟨[], holds.leads_refl followed⟩
      · next quiet =>
          rw [Bool.or_eq_true, not_or, Bool.not_eq_true, Bool.not_eq_true] at quiet
          rcases holds.agrees with ⟨ledger, agrees⟩
          refine ⟨[], holds.leads_of_keeps ⟨_, (Desk.leads_after agrees command).agrees⟩
            (Desk.keeps_after agrees quiet.1) ?_⟩
          rintro number rfl
          exact quiet.2

/-! ## Whole histories -/

theorem Holds.leads_run (holds : scene.Holds shape) (followed : Option Nat) (events : List Event) :
    ∃ changes, scene.Leads (scene.run followed events) shape followed changes := by
  induction events generalizing scene shape with
  | nil => exact ⟨[], holds.leads_refl followed⟩
  | cons event rest inductionHypothesis =>
      rcases holds.leads_after followed event with ⟨changes, ⟨shape', holds', follows'⟩, made⟩
      rcases inductionHypothesis holds' with ⟨later, ⟨shape'', holds'', follows''⟩, made'⟩
      refine ⟨changes ++ later, ⟨shape'', holds'', ?_⟩, ?_⟩
      · intro number cursor char fate same follows
        rw [List.foldl_append]
        exact follows'' number cursor char _ same (follows' number cursor char fate same follows)
      · rw [run, List.foldl_cons, ← run, made', made, List.append_assoc]

/-- A rope of one leaf is a document. -/
theorem start_holds {desk : Desk} {ledger : Ledger} (agrees : desk.Agrees ledger) {id : BufferId}
    (within : id < desk.store.buffers.size) (text : String) :
    ∃ shape, (start desk id text).Holds shape := by
  rcases Store.build_spec agrees.sound within (.text text) with ⟨shape, done⟩
  simp only [Store.build] at done
  rw [start]
  generalize desk.store.rope id text = made at done ⊢
  rcases made with ⟨document, store⟩
  simp only at done
  have agreesAfter := (agrees.addRopes (done.evolves agrees.sound) (done.size.trans agrees.buffers)
    [(document, shape)] (by
    intro pair member
    rw [List.mem_singleton.mp member]
    exact ⟨done.root, done.buffer ▸ done.adds.current.shown⟩)).agrees
  exact ⟨shape, ⟨_, agreesAfter⟩, done.root, done.buffer ▸ done.adds.current⟩

/-! ## What a followed cursor answers -/

/-- A cursor that stays with a character of a tree is at the index of that character. -/
theorem Stays.answers {cursor : Cursor} {host : Shape} {index : Nat} {char : Char}
    (stay : scene.Stays cursor host index char) :
    scene.desk.store.position cursor =
        scene.desk.store.positionAt ⟨scene.document.buffer, host.root⟩ index ∧
      scene.desk.store.index cursor = index ∧
      scene.desk.store.peek (scene.desk.store.position cursor) = some char ∧
      (scene.desk.store.buffer scene.document.buffer).rootOf
        (scene.desk.store.position cursor).place.leaf = host.root := by
  rcases stay.seat with ⟨place, sits, spot⟩
  have means := Shape.means_of_spot spot
  rw [if_neg Bool.false_ne_true] at means
  have position := Store.position_of_place? sits
  rw [stay.buffer, stay.current.settle means] at position
  have stands := stay.current.shown.stands_locate means.le_length
  refine ⟨?_, ?_, ?_, ?_⟩
  · rw [position, Store.positionAt]
    simp only [stay.current.settle stands.means]
  · rw [Store.index, position, Store.indexOf]
    exact stay.current.indexOf stands.means
  · rw [position, Store.peek]
    exact (stay.current.shown.peek stands).trans stay.char
  · rw [position]
    exact stay.current.rootOf_leaf stands.means

/-- A cursor is in the same document as the start of the newest version exactly if the tree
it stays in is that version. -/
theorem Stays.sameDocument_iff {cursor : Cursor} {host : Shape} {index : Nat} {char : Char}
    (stay : scene.Stays cursor host index char) (holds : scene.Holds shape) :
    scene.desk.store.sameDocument (scene.desk.store.position cursor)
      (scene.desk.store.positionAt scene.document 0) = true ↔ host.root = shape.root := by
  rcases stay.answers with ⟨atPosition, _, _, hostRoot⟩
  have stands := holds.current.shown.stands_locate (Nat.zero_le shape.text.length)
  have origin : scene.desk.store.positionAt scene.document 0 = ⟨scene.document.buffer,
      (scene.desk.store.buffer scene.document.buffer).locate shape.root 0⟩ := by
    rw [Store.positionAt, ← holds.root, holds.current.settle stands.means]
  have buffer : (scene.desk.store.position cursor).buffer = scene.document.buffer := by
    rw [atPosition]
    rfl
  rw [Store.sameDocument_iff, buffer, origin, hostRoot, holds.current.rootOf_leaf stands.means]
  exact ⟨And.right, fun same => ⟨rfl, same⟩⟩

/-- The scene after a cursor was made at an index of the document, and the cursor.  Its
number is the number of cursors there were.  Changes are counted from there on. -/
def mark (scene : Scene) (index : Nat) : Except RangeError Cursor × Scene :=
  match scene.desk.store.cursor scene.document index with
  | (.ok cursor, store) =>
    (.ok cursor, ⟨scene.desk.addCursor (cursor, store), scene.document, []⟩)
  | (.error error, store) => (.error error, { scene with desk := { scene.desk with store } })

/-- A new cursor in front of a character is followed. -/
theorem Holds.mark (holds : scene.Holds shape) {index : Nat} {char : Char}
    (found : shape.text[index]? = some char) :
    ∃ cursor marked, scene.mark index = (.ok cursor, marked) ∧ marked.document = scene.document ∧
      marked.changes = [] ∧ marked.Holds shape ∧
      marked.Follows shape scene.desk.cursors.length cursor char (.kept index) := by
  rcases holds.agrees with ⟨ledger, agrees⟩
  have within : index < shape.text.length := by
    rcases Nat.lt_or_ge index shape.text.length with inside | beyond
    · exact inside
    · rw [List.getElem?_eq_none beyond] at found
      cases found
  have has := agrees.sound.hasPosition_positionAt holds.shows (Nat.le_of_lt within)
  rcases Store.cursorAt_spec agrees.sound has with ⟨_, inBuffer, reseats⟩
  have leads := agrees.addCursor has
  have stands := holds.current.shown.stands_locate (Nat.le_of_lt within)
  have seat : (scene.desk.store.positionAt scene.document index).place =
      (scene.desk.store.buffer scene.document.buffer).locate shape.root index := by
    simp only [Store.positionAt, ← holds.root]
    exact holds.current.settle stands.means
  have made : scene.desk.store.cursor scene.document index =
      (.ok (scene.desk.store.cursorAt (scene.desk.store.positionAt scene.document index)).1,
        (scene.desk.store.cursorAt (scene.desk.store.positionAt scene.document index)).2) := by
    rw [Store.cursor_eq, holds.shows.length, if_neg (Nat.not_lt_of_le (Nat.le_of_lt within))]
  generalize scene.desk.store.cursorAt (scene.desk.store.positionAt scene.document index) = pair
    at inBuffer reseats leads made
  rcases pair with ⟨cursor, store⟩
  have current := holds.current.sameTrees (reseats.trees scene.document.buffer)
  refine ⟨cursor, ⟨scene.desk.addCursor (cursor, store), scene.document, []⟩, ?_, rfl, rfl,
    ⟨⟨ledger, leads.agrees⟩, holds.root, current⟩, ?_, inBuffer, current, ?_, found⟩
  · rw [Scene.mark, made]
  · simp only [Desk.cursor?, Desk.addCursor, List.getElem?_concat_length, Option.join_some]
  · refine ⟨_, (reseats.place cursor).trans (if_pos rfl), ?_⟩
    rw [seat]
    exact holds.current.shown.spot_locate within

/-- Take a document that began as one leaf of any buffer, after any history of it.  A cursor
made in front of a character stays there through every further history.  While no edit
removes the character its index is moved by the edits alone, and the cursor is in the same
document as the start of the newest version.  Once an edit has removed it the cursor is in
front of it among the characters that were cut out, and in another document. -/
theorem cursor_follows_its_character (before : List Command) (id : BufferId) (text : String)
    (within : id < (Desk.run before).store.buffers.size) (early late : List Event) (index : Nat)
    (char : Char) (found : ((start (Desk.run before) id text).run none early).text.toList[index]? =
      some char) :
    ∃ cursor marked, ((start (Desk.run before) id text).run none early).mark index =
        (.ok cursor, marked) ∧
      let followed := ((start (Desk.run before) id text).run none early).desk.cursors.length
      let final := marked.run (some followed) late
      let store := final.desk.store
      let position := store.position cursor
      let origin := store.positionAt final.document 0
      store.peek position = some char ∧
        match final.changes.foldl Fate.after (.kept index) with
        | .kept now => store.index cursor = now ∧ store.sameDocument position origin = true
        | .removed removed offset =>
          position = store.positionAt removed offset ∧ store.index cursor = offset ∧
            store.sameDocument position origin = false := by
  rcases start_holds (Desk.run_agrees before) within text with ⟨first, firstHolds⟩
  rcases firstHolds.leads_run none early with ⟨_, ⟨shape, holds, _⟩, _⟩
  generalize (start (Desk.run before) id text).run none early = scene at found holds
  rw [Scene.text, holds.shows.text, String.toList_ofList] at found
  rcases holds.mark found with ⟨cursor, marked, made, _, fresh, markedHolds, follows⟩
  refine ⟨cursor, marked, made, ?_⟩
  intro followed final store position origin
  rcases markedHolds.leads_run (some followed) late with ⟨changes, ⟨last, finalHolds, carries⟩, done⟩
  rw [show (marked.run (some followed) late).changes = changes by rw [done, fresh, List.nil_append]]
  have lands := carries followed cursor char (.kept index) rfl follows
  generalize changes.foldl Fate.after (.kept index) = fate at lands
  cases fate with
  | kept now =>
      rcases lands.2.answers with ⟨_, atIndex, peeks, _⟩
      exact ⟨peeks, atIndex, (lands.2.sameDocument_iff finalHolds).mpr rfl⟩
  | removed removed offset =>
      rcases lands.2 with ⟨host, rfl, different, stay⟩
      rcases stay.answers with ⟨atPosition, atIndex, peeks, _⟩
      refine ⟨peeks, atPosition, atIndex, ?_⟩
      exact Bool.eq_false_iff.mpr fun same => different ((stay.sameDocument_iff finalHolds).mp same)

/-- A cursor in front of the letter b, which an edit puts at index 2 and another one cuts out. -/
theorem cursor_follows_b :
    0 < (Desk.run [.newBuffer]).store.buffers.size ∧
      ∃ cursor marked,
        ((start (Desk.run [.newBuffer]) 0 "abc").run none [.edit 0 1 (.text "xy")]).mark 2 =
          (.ok cursor, marked) ∧
        let store := (marked.run (some 0) [.edit 1 3 (.text "z")]).desk.store
        store.peek (store.position cursor) = some 'b' := by
  have within : 0 < (Desk.run [.newBuffer]).store.buffers.size := by decide
  rcases cursor_follows_its_character [.newBuffer] 0 "abc" within [.edit 0 1 (.text "xy")]
    [.edit 1 3 (.text "z")] 2 'b' (by decide +kernel) with ⟨cursor, marked, made, peeks, _⟩
  exact ⟨within, cursor, marked, made, peeks⟩

end Scene

end Reparse
