import Reparse.Proofs.Rope.Newest

/-!
# Navigation in a newest rope is navigation in a list

A cursor of a newest rope is at an index of its text, and everything that it answers
is an answer about the list at that index: the character in front of it, what it
reads, where it arrives, and what a cursor moved in place passes over from step to
step.  Two cursors of one newest rope have the same position exactly if they are at
the same index, however the text is cut into leaves.  The position is what cursors are
compared and looked up by.

The position of a cursor is settled before it is used.  Settling twice is settling
once, so a settled position in a leaf of a newest rope is the place that is found
from the root.
-/

namespace Reparse

/-- A step of a cursor that is moved in place. -/
inductive Move where
  | read (count : Nat)
  | next
  | back (count : Nat)
deriving DecidableEq, Repr

namespace Move

/-- What a step is on a list: the characters that it answers, and the index after it. -/
def on (text : List Char) (index : Nat) : Move → List Char × Nat
  | .read count =>
    let stop := min (index + count) text.length
    (text.extract index stop, stop)
  | .next =>
    match text[index]? with
    | some char => ([char], index + 1)
    | none => ([], index)
  | .back count => ([], index - min count index)

/-- The answers and the indices of steps that are made one after the other. -/
def trace (text : List Char) : Nat → List Move → List (List Char × Nat)
  | _, [] => []
  | index, move :: moves => move.on text index :: trace text (move.on text index).2 moves

end Move

namespace Buffer

variable {buffer : Buffer} {shape : Shape}

/-! ## Settled places -/

/-- The leaf after a leaf is below a branch, so it has text. -/
theorem WellFormed.length_nextLeafWithin_pos (formed : buffer.WellFormed) {fuel : Nat}
    {node leaf : NodeId} (follows : buffer.nextLeafWithin fuel node = some leaf) :
    0 < buffer.length leaf := by
  induction fuel generalizing node with
  | zero => cases follows
  | succ fuel inductionHypothesis =>
      rw [nextLeafWithin] at follows
      cases owned : buffer.parent node with
      | none => simp only [owned, reduceCtorEq] at follows
      | some parent =>
          rcases formed.children_shown owned with ⟨left, right, children, _, rightShown, rightText⟩
          simp only [owned, children] at follows
          split at follows
          · exact inductionHypothesis follows
          · cases follows
            rcases firstLeafWithin_of_shows rightShown _ rightShown.height_lt with
              ⟨text, rest, chunks⟩
            exact rightShown.length_chunk_pos rightText (by rw [chunks]; exact List.mem_cons_self)

/-- The leaf before a leaf is below a branch, so it has text. -/
theorem WellFormed.length_prevLeafWithin_pos (formed : buffer.WellFormed) {fuel : Nat}
    {node leaf : NodeId} (precedes : buffer.prevLeafWithin fuel node = some leaf) :
    0 < buffer.length leaf := by
  induction fuel generalizing node with
  | zero => cases precedes
  | succ fuel inductionHypothesis =>
      rw [prevLeafWithin] at precedes
      cases owned : buffer.parent node with
      | none => simp only [owned, reduceCtorEq] at precedes
      | some parent =>
          rcases formed.children_shown owned with ⟨left, right, children, ⟨leftShown, leftText⟩, _⟩
          simp only [owned, children] at precedes
          split at precedes
          · exact inductionHypothesis precedes
          · cases precedes
            rcases lastLeafWithin_of_shows leftShown _ leftShown.height_lt with
              ⟨text, before, chunks⟩
            exact leftShown.length_chunk_pos leftText
              (by rw [chunks]; exact List.mem_append_right _ (List.mem_singleton.mpr rfl))

/-- A place at a character, or at the end of a leaf that no leaf follows. -/
def Settled (buffer : Buffer) (place : Place) : Prop :=
  place.offset < buffer.length place.leaf ∨
    buffer.nextLeaf place.leaf = none ∧ place.offset = buffer.length place.leaf

theorem WellFormed.settled_settle (formed : buffer.WellFormed) {place : Place}
    (has : buffer.HasPlace place) : buffer.Settled (buffer.settle place) := by
  rcases has with ⟨text, found, _⟩
  rcases Nat.exists_eq_succ_of_ne_zero (Nat.ne_of_gt (Nat.zero_lt_of_lt (lt_nodeCount_of_view found)))
    with ⟨fuel, count⟩
  rw [settle, count, settleWithin]
  split
  · next inside => exact Or.inl inside
  · cases follows : buffer.nextLeaf place.leaf with
    | none => exact Or.inr ⟨follows, rfl⟩
    | some next =>
        have inside := formed.length_nextLeafWithin_pos follows
        simp only [settleWithin, if_pos inside]
        exact Or.inl inside

theorem Settled.settle {place : Place} (settled : buffer.Settled place) :
    buffer.settle place = place := by
  rw [Buffer.settle, settleWithin]
  rcases settled with inside | ⟨last, atEnd⟩
  · rw [if_pos inside]
  · rw [if_neg (Nat.not_lt_of_le (Nat.le_of_eq atEnd.symm)), last]
    simp only [← atEnd]

/-- A leaf below the root of a shape is one of its chunks. -/
theorem Shows.chunk_of_leaf (shown : buffer.Shows shape) {leaf : NodeId} {text : Array Char}
    (member : leaf ∈ shape.nodes) (found : buffer.view leaf = some (.leaf text none {})) :
    (leaf, text.toList) ∈ shape.chunks := by
  induction shape with
  | leaf own content =>
      rw [Shape.nodes, List.mem_singleton] at member
      subst member
      cases shown.symm.trans found
      exact List.mem_cons_self
  | branch own left right leftHypothesis rightHypothesis =>
      rcases shown with ⟨isBranch, _, _, _, _, leftShown, rightShown⟩
      rw [Shape.nodes, List.mem_cons, List.mem_append] at member
      rw [Shape.chunks, List.mem_append]
      rcases member with rfl | inLeft | inRight
      · cases isBranch.symm.trans found
      · exact Or.inl (leftHypothesis leftShown inLeft)
      · exact Or.inr (rightHypothesis rightShown inRight)

/-- A settled place in a leaf of a current tree is the one that is found from the root. -/
theorem Current.locate_of_settled (current : buffer.Current shape) {place : Place}
    (settled : buffer.Settled place) (has : buffer.HasPlace place)
    (member : place.leaf ∈ shape.nodes) :
    ∃ index, index ≤ shape.text.length ∧ place = buffer.locate shape.root index := by
  rcases has with ⟨text, found, within⟩
  rcases List.append_of_mem (current.shown.chunk_of_leaf member found) with ⟨before, after, chunks⟩
  have means : shape.Means place (extent before + place.offset) :=
    ⟨before, text.toList, after, chunks, within, rfl⟩
  exact ⟨_, means.le_length, by rw [← current.settle means, settled.settle]⟩

end Buffer

namespace Store

variable {store : Store}

/-- Move a cursor in place, and answer what was read. -/
def move (store : Store) (cursor : Cursor) : Move → List Char × Store
  | .read count =>
    let (text, moved) := store.advance cursor count
    (text.toList, moved)
  | .next =>
    let (char, moved) := store.advanceChar cursor
    (char.toList, moved)
  | .back count => ([], store.retreat cursor count)

/-- The answers and the indices of a cursor that is moved in place. -/
def trace (store : Store) (cursor : Cursor) : List Move → List (List Char × Nat)
  | [] => []
  | move :: moves =>
    let (text, moved) := store.move cursor move
    (text, moved.index cursor) :: moved.trace cursor moves

/-- A live cursor whose position is in a leaf of the rope. -/
structure Marks (store : Store) (rope : Rope) (cursor : Cursor) : Prop where
  live : (store.place? cursor).isSome
  buffer : cursor.buffer = rope.buffer
  below : (store.buffer rope.buffer).Below rope.root (store.position cursor).place.leaf

/-- A cursor is at an index of the text of a rope, and goes on from there as on a list. -/
structure Navigates (store : Store) (rope : Rope) (text : List Char) (cursor : Cursor)
    (index : Nat) : Prop where
  within : index ≤ text.length
  marks : store.Marks rope cursor
  arrived : store.index cursor = index
  peek : store.peek (store.position cursor) = text[index]?
  read : ∀ count, match store.read cursor count with
    | ((passed, past), after) =>
      passed.toList = text.extract index (min (index + count) text.length) ∧
        after.Marks rope past ∧ after.index past = min (index + count) text.length
  back : ∀ count, match store.back cursor count with
    | (earlier, after) => after.Marks rope earlier ∧ after.index earlier = index - min count index
  copy : ∀ moves, match store.copy cursor with
    | (twin, after) => after.Marks rope twin ∧ after.index twin = index ∧
      after.trace twin moves = Move.trace text index moves
  trace : ∀ moves, store.trace cursor moves = Move.trace text index moves

/-! ## Cursors of a current tree -/

/-- The shape of a rope is a current tree. -/
structure Hosts (store : Store) (rope : Rope) (shape : Shape) : Prop where
  sound : store.Sound
  root : shape.root = rope.root
  current : (store.buffer rope.buffer).Current shape

/-- A live cursor is where an index is found from the root. -/
structure At (store : Store) (rope : Rope) (shape : Shape) (cursor : Cursor) (index : Nat) : Prop
    extends Hosts store rope shape where
  live : (store.place? cursor).isSome
  position : store.position cursor =
    ⟨rope.buffer, (store.buffer rope.buffer).locate shape.root index⟩
  within : index ≤ shape.text.length

variable {rope : Rope} {shape : Shape} {cursor other : Cursor} {index : Nat}

theorem Hosts.stands (hosts : store.Hosts rope shape) (within : index ≤ shape.text.length) :
    shape.Stands ((store.buffer rope.buffer).locate shape.root index) index :=
  hosts.current.shown.stands_locate within

/-- The place that stands at an index is the one that the index is found at. -/
theorem Hosts.positionAt_of_stands (hosts : store.Hosts rope shape) {place : Place}
    (stands : shape.Stands place index) :
    (store.positionAt rope index).place = place ∧
      store.indexOf (store.positionAt rope index) = index := by
  have found := hosts.stands stands.means.le_length
  have position : store.positionAt rope index = ⟨rope.buffer, place⟩ := by
    rw [positionAt, ← hosts.root, hosts.current.settle found.means, stands.unique found]
  rw [position]
  exact ⟨rfl, hosts.current.indexOf stands.means⟩

/-- A cursor that was put where an index is found is at that index. -/
theorem Hosts.reseated (hosts : store.Hosts rope shape) (within : index ≤ shape.text.length)
    {after : Store} (reseats : store.Reseats after cursor
      (some ((store.buffer rope.buffer).locate shape.root index)))
    (buffer : cursor.buffer = rope.buffer) : after.At rope shape cursor index := by
  have current := hosts.current.sameTrees (reseats.trees rope.buffer)
  have sits := (reseats.place cursor).trans (if_pos rfl)
  refine ⟨⟨reseats.sound, hosts.root, current⟩, by rw [sits]; rfl, ?_, within⟩
  rw [position_of_place? sits, buffer, current.settle (hosts.stands within).means]

theorem Hosts.cursorAt (hosts : store.Hosts rope shape) (within : index ≤ shape.text.length) :
    match store.cursorAt ⟨rope.buffer, (store.buffer rope.buffer).locate shape.root index⟩ with
    | (made, after) => after.At rope shape made index := by
  have has : store.HasPosition ⟨rope.buffer, (store.buffer rope.buffer).locate shape.root index⟩ :=
    Buffer.hasPlace_locate hosts.current.shown within
  rcases cursorAt_spec hosts.sound has with ⟨_, buffer, reseats⟩
  exact hosts.reseated within reseats buffer

theorem At.buffer (sits : store.At rope shape cursor index) : cursor.buffer = rope.buffer :=
  congrArg Position.buffer sits.position

/-- A cursor of a current tree stands at its index. -/
theorem At.stands_place (sits : store.At rope shape cursor index) :
    shape.Stands (store.position cursor).place index := by
  rw [sits.position]
  exact sits.toHosts.stands sits.within

theorem At.seat (sits : store.At rope shape cursor index) {target : Nat}
    (within : target ≤ shape.text.length) :
    (store.seat cursor ((store.buffer rope.buffer).locate shape.root target)).At rope shape cursor
      target := by
  rcases Option.isSome_iff_exists.mp sits.live with ⟨old, placed⟩
  have has : store.HasPosition
      ⟨cursor.buffer, (store.buffer rope.buffer).locate shape.root target⟩ := by
    rw [sits.buffer]
    exact Buffer.hasPlace_locate sits.current.shown within
  exact sits.toHosts.reseated within (seat_spec sits.sound placed has) sits.buffer

theorem At.index_eq (sits : store.At rope shape cursor index) : store.index cursor = index := by
  rw [Store.index, sits.position]
  exact sits.current.indexOf (sits.stands sits.within).means

theorem At.peek (sits : store.At rope shape cursor index) :
    store.peek (store.position cursor) = shape.text[index]? := by
  rw [sits.position]
  exact sits.current.shown.peek (sits.stands sits.within)

theorem At.marks (sits : store.At rope shape cursor index) : store.Marks rope cursor := by
  refine ⟨sits.live, sits.buffer, ?_⟩
  rw [sits.position, ← sits.root]
  exact sits.current.shown.below_iff.mpr (sits.stands sits.within).means.mem_nodes

/-- A cursor whose position is in a leaf of a current tree is at an index of it. -/
theorem Hosts.at_of_marks (hosts : store.Hosts rope shape) (marks : store.Marks rope cursor) :
    ∃ index, store.At rope shape cursor index := by
  rcases Option.isSome_iff_exists.mp marks.live with ⟨place, sits⟩
  have position := position_of_place? sits
  have below := marks.below
  have has := hosts.sound.hasPosition sits
  rw [position, marks.buffer, ← hosts.root, hosts.current.shown.below_iff] at below
  rw [marks.buffer] at has position
  have formed := (hosts.sound rope.buffer).formed
  rcases hosts.current.locate_of_settled (formed.settled_settle has) (formed.hasPlace_settle has) below
    with ⟨index, within, same⟩
  exact ⟨index, hosts, marks.live, by rw [position, same], within⟩

/-- Cursors of one current tree have the same position if they are at the same index. -/
theorem At.position_eq_iff {index' : Nat} (one : store.At rope shape cursor index)
    (two : store.At rope shape other index') :
    store.position cursor = store.position other ↔ store.index cursor = store.index other := by
  constructor
  · intro same
    rw [Store.index, same, ← Store.index]
  · intro same
    rw [one.index_eq, two.index_eq] at same
    rw [one.position, two.position, same]

/-! ## Walks of a cursor -/

theorem At.readFrom (sits : store.At rope shape cursor index) (count : Nat) :
    store.readFrom (store.position cursor) count =
      (String.ofList (shape.text.extract index (min (index + count) shape.text.length)),
        ⟨rope.buffer, (store.buffer rope.buffer).locate shape.root
          (min (index + count) shape.text.length)⟩) := by
  have same : shape.text.extract index (min (index + count) shape.text.length) =
      (shape.text.drop index).take count := by
    have within := sits.within
    rw [List.extract_eq_take_drop]
    refine List.take_eq_take_iff.mpr ?_
    rw [List.length_drop]
    omega
  rw [same, sits.position, Store.readFrom,
    sits.current.forward (sits.stands sits.within).means count]

theorem At.backFrom (sits : store.At rope shape cursor index) (count : Nat) :
    store.backFrom (store.position cursor) count =
      ⟨rope.buffer, (store.buffer rope.buffer).locate shape.root (index - min count index)⟩ := by
  have same : index - min count index = index - count := by omega
  rw [same, sits.position, Store.backFrom,
    sits.current.backward (sits.stands sits.within).means count]

/-- A move in place answers what the list answers, and arrives where it does. -/
theorem At.move (sits : store.At rope shape cursor index) (move : Move) :
    (store.move cursor move).1 = (move.on shape.text index).1 ∧
      (store.move cursor move).2.At rope shape cursor (move.on shape.text index).2 := by
  cases move with
  | read count =>
      simp only [Store.move, Store.advance, sits.readFrom count, Move.on, String.toList_ofList,
        true_and]
      exact sits.seat (Nat.min_le_right _ _)
  | next =>
      simp only [Store.move, Store.advanceChar, sits.peek, Move.on]
      cases found : shape.text[index]? with
      | none => exact ⟨rfl, sits⟩
      | some char =>
          have inside := (List.getElem?_eq_some_iff.mp found).1
          simp only [sits.readFrom 1, Nat.min_eq_left (Nat.succ_le_of_lt inside)]
          exact ⟨rfl, sits.seat inside⟩
  | back count =>
      simp only [Store.move, Store.retreat, sits.backFrom count, Move.on, true_and]
      exact sits.seat (Nat.le_trans (Nat.sub_le _ _) sits.within)

/-- Moves in place, one after the other, go as on the list. -/
theorem At.trace (sits : store.At rope shape cursor index) (moves : List Move) :
    store.trace cursor moves = Move.trace shape.text index moves := by
  induction moves generalizing store index with
  | nil => rfl
  | cons move rest inductionHypothesis =>
      rcases sits.move move with ⟨answers, arrives⟩
      simp only [Store.trace, Move.trace, answers, arrives.index_eq, inductionHypothesis arrives]

theorem At.navigates (sits : store.At rope shape cursor index) :
    store.Navigates rope shape.text cursor index := by
  refine ⟨sits.within, sits.marks, sits.index_eq, sits.peek, fun count => ?_, fun count => ?_,
    fun moves => ?_, sits.trace⟩
  · have made := sits.cursorAt (Nat.min_le_right (index + count) shape.text.length)
    simp only [Store.read, sits.readFrom count, String.toList_ofList, true_and]
    exact ⟨made.marks, made.index_eq⟩
  · have made := sits.cursorAt (Nat.le_trans (Nat.sub_le index (min count index)) sits.within)
    simp only [Store.back, sits.backFrom count]
    exact ⟨made.marks, made.index_eq⟩
  · have made := sits.cursorAt sits.within
    simp only [Store.copy, sits.position]
    exact ⟨made.marks, made.index_eq, made.trace moves⟩

/-- The cursor at an index of a current tree. -/
theorem Hosts.cursor_spec (hosts : store.Hosts rope shape) (within : index ≤ shape.text.length) :
    ∃ cursor after, store.cursor rope index = (.ok cursor, after) ∧
      after.At rope shape cursor index := by
  have made := hosts.cursorAt within
  have shown : store.Shows rope shape := ⟨hosts.root, hosts.current.shown⟩
  have position : store.positionAt rope index =
      ⟨rope.buffer, (store.buffer rope.buffer).locate shape.root index⟩ := by
    rw [positionAt, ← hosts.root, hosts.current.settle (hosts.stands within).means]
  rw [← position] at made
  refine ⟨(store.cursorAt (store.positionAt rope index)).1,
    (store.cursorAt (store.positionAt rope index)).2, ?_, made⟩
  rw [cursor_eq, shown.length, if_neg (Nat.not_lt_of_le within)]

end Store

namespace Desk

/-- After any commands, a newest rope is the current tree of some shape, and has the text of it. -/
theorem exists_hosts (commands : List Command) {rope : Rope} (member : rope ∈ (run commands).ropes)
    (newest : (run commands).store.Newest rope) :
    ∃ shape, (run commands).store.Hosts rope shape ∧
      ((run commands).store.text rope).toList = shape.text := by
  have agrees : (run commands).Agrees (Ledger.run commands) := run_agrees commands
  rcases agrees.rooted rope member with ⟨shape, shown⟩
  refine ⟨shape, ⟨agrees.sound, shown.1,
    newest.current agrees.sound (run_forked commands) shown⟩, ?_⟩
  rw [shown.text, String.toList_ofList]

/-- After any commands, the operations on ropes keep to newest ropes, and in a newest rope
cursors go about as indices of a list do.  A cursor at an index is there and goes on from
there as on the list.  Any cursor whose position is in the rope is at some index, and goes
on from there.  Two of them have the same position exactly if their indices are the same. -/
theorem newest_ropes_navigate_as_lists (commands : List Command) :
    let desk := run commands
    let store := desk.store
    (∀ id text, id < store.buffers.size → (store.rope id text).2.Newest (store.rope id text).1) ∧
      (∀ text, (store.newRope text).2.Newest (store.newRope text).1) ∧
      (∀ rope ∈ desk.ropes, store.Newest rope → ∀ index ≤ store.length rope,
        ∃ left right after, store.split rope index = (.ok (left, right), after) ∧
          after.Newest left ∧ after.Newest right) ∧
      (∀ first ∈ desk.ropes, ∀ second ∈ desk.ropes, store.Newest first → store.Newest second →
        (store.concat first second).2.Newest (store.concat first second).1) ∧
      (∀ rope ∈ desk.ropes, ∀ insertion ∈ desk.ropes, store.Newest rope → store.Newest insertion →
        insertion ≠ rope → ∀ start stop, start ≤ stop → stop ≤ store.length rope →
          ∃ edit after, store.replace rope start stop insertion = (.ok edit, after) ∧
            after.Newest edit.replaced ∧ after.Newest edit.removed) ∧
      ∀ rope ∈ desk.ropes, store.Newest rope →
        let text := (store.text rope).toList
        (∀ index ≤ text.length, ∃ cursor after, store.cursor rope index = (.ok cursor, after) ∧
          after.Navigates rope text cursor index) ∧
        (∀ cursor, store.Marks rope cursor →
          store.Navigates rope text cursor (store.index cursor)) ∧
        ∀ cursor other, store.Marks rope cursor → store.Marks rope other →
          (store.position cursor = store.position other ↔
            store.index cursor = store.index other) := by
  intro desk store
  have agrees : desk.Agrees (Ledger.run commands) := run_agrees commands
  have sound : store.Sound := agrees.sound
  have forked : store.Forked := run_forked commands
  refine ⟨fun id text within => Store.newest_rope sound within text, Store.newest_newRope sound,
    ?_, ?_, ?_, ?_⟩
  · intro rope member newest index within
    rcases agrees.rooted rope member with ⟨shape, shown⟩
    rw [shown.length] at within
    exact newest.split sound forked shown within
  · intro first member second member' newest newest'
    rcases agrees.rooted first member with ⟨shape, shown⟩
    rcases agrees.rooted second member' with ⟨shape', shown'⟩
    exact newest.concat newest' sound forked shown shown'
  · intro rope member insertion member' newest newest' different start stop ordered within
    rcases agrees.rooted rope member with ⟨shape, shown⟩
    rcases agrees.rooted insertion member' with ⟨shape', shown'⟩
    rw [shown.length] at within
    exact newest.replace newest' different sound forked shown shown' ordered within
  · intro rope member newest text
    rcases agrees.rooted rope member with ⟨shape, shown⟩
    have isText : text = shape.text := by
      simp only [text]
      rw [shown.text, String.toList_ofList]
    have hosts : store.Hosts rope shape := ⟨sound, shown.1, newest.current sound forked shown⟩
    rw [isText]
    refine ⟨fun index within => ?_, fun cursor marks => ?_, fun cursor other marks marks' => ?_⟩
    · rcases hosts.cursor_spec within with ⟨cursor, after, made, sits⟩
      exact ⟨cursor, after, made, sits.navigates⟩
    · rcases hosts.at_of_marks marks with ⟨index, sits⟩
      rw [sits.index_eq]
      exact sits.navigates
    · rcases hosts.at_of_marks marks with ⟨index, sits⟩
      rcases hosts.at_of_marks marks' with ⟨index', sits'⟩
      exact sits.position_eq_iff sits'

/-- A rope that is joined from two leaves: a cursor of it reads over the seam. -/
theorem newest_rope_of_two_leaves :
    let desk := run [.newBuffer, .rope 0 "ab", .rope 0 "cd", .concat 0 1]
    ⟨0, 2⟩ ∈ desk.ropes ∧ desk.store.Newest ⟨0, 2⟩ ∧
      ∃ cursor after, desk.store.cursor ⟨0, 2⟩ 1 = (.ok cursor, after) ∧
        after.trace cursor [.read 2, .next, .next, .back 9] =
          [(['b', 'c'], 3), (['d'], 4), ([], 4), ([], 0)] := by
  intro desk
  have member : ⟨0, 2⟩ ∈ desk.ropes := by decide +kernel
  have current : (desk.store.buffer 0).Current
      (.branch 2 (.leaf 0 ['a', 'b']) (.leaf 1 ['c', 'd'])) :=
    ⟨⟨by rfl, by decide, by decide, by decide, by decide, by rfl, by rfl⟩,
      ⟨by decide +kernel, by decide +kernel, trivial, trivial⟩, by decide +kernel, by decide⟩
  have newest : desk.store.Newest ⟨0, 2⟩ := current.newest
  have text : (desk.store.text ⟨0, 2⟩).toList = ['a', 'b', 'c', 'd'] := by decide +kernel
  rcases newest_ropes_navigate_as_lists [.newBuffer, .rope 0 "ab", .rope 0 "cd", .concat 0 1] with
    ⟨_, _, _, _, _, navigates⟩
  rcases (navigates ⟨0, 2⟩ member newest).1 1 (by decide +kernel) with ⟨cursor, after, made, follows⟩
  refine ⟨member, newest, cursor, after, made, ?_⟩
  rw [follows.trace, text]
  decide
end Desk

end Reparse
