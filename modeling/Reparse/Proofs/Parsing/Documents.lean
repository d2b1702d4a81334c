import Reparse.Proofs.Parsing.Reuse
import Reparse.Proofs.Rope.Revisions

namespace Reparse

/-!
# Documents between parses

What is promised of the kept nodes holds of a new document, because it keeps
none.  Each edit is entered in the log, so what is promised of the nodes that the
log does not report still holds.  The nodes that it does report go before the
next parse, which then begins with nothing pending.
-/

variable {V : Vocabulary} {promise : Promise V}

namespace Session

variable {session : Session V} {rope : Rope} {shape : Shape} {log : EditLog}

/-- Nothing is kept for a text in a buffer of its own. -/
theorem newRope_fulfils (promise : Promise V) (session : Session V) (sound : session.store.Sound)
    (empty : session.memos = []) (text : String) :
    ∃ shape, { session with store := (session.store.newRope text).2 }.Fulfils promise
      (session.store.newRope text).1 shape {} ∧ shape.text = text.toList := by
  have sound' := (Store.evolves_newBuffer sound).sound
  have within : session.store.newBuffer.1 < session.store.newBuffer.2.buffers.size := by
    simp only [Store.newBuffer, Array.size_push]
    exact Nat.lt_succ_self _
  have adds := Store.adds_rope sound' within text
  refine ⟨_, ⟨(adds.evolves sound').sound, ?_, rfl, ?_⟩, adds.adds.text⟩
  · have current := adds.adds.current
    rw [← adds.buffer] at current
    exact current
  · rintro rule state entry ⟨memo, member, _⟩
    have inMemos : (rule, memo) ∈ session.memos := member
    rw [empty] at inMemos
    exact absurd inMemos List.not_mem_nil

theorem Fulfils.releaseUnused (fulfils : session.Fulfils promise rope shape log)
    (grammar : Grammar V) (trees : List V.Node) (cursors : List Cursor) :
    ∃ store, session.releaseUnused grammar trees cursors = { session with store } ∧
      { session with store }.Fulfils promise rope shape log ∧
      ∀ cursor ∈ session.heldCursors, store.place? cursor = session.store.place? cursor := by
  rcases releaseUnused_spec fulfils.sound grammar trees cursors with
    ⟨wanted, store, becomes, releases, held⟩
  have places : ∀ cursor ∈ session.heldCursors,
      store.place? cursor = session.store.place? cursor := fun cursor member =>
    releases.place cursor (held cursor (List.mem_append_left _ member))
  refine ⟨store, becomes, fulfils.withStore releases.sound ?_ places, places⟩
  exact fun host current => current.sameTrees (releases.trees rope.buffer)

/-- The start of the text has a position. -/
theorem Fulfils.positionAt_start (fulfils : session.Fulfils promise rope shape log) :
    ∃ place, session.store.positionAt rope 0 = ⟨rope.buffer, place⟩ ∧ shape.Stands place 0 := by
  have stands := fulfils.current.shown.stands_locate (Nat.zero_le _)
  rw [fulfils.root] at stands
  exact ⟨_, rfl, (fulfils.current.sits stands).settles⟩

theorem Fulfils.beginSweep (fulfils : session.Fulfils promise rope shape log) :
    session.beginSweep.Fulfils promise rope shape log :=
  fulfils.fewer rfl fun _ _ entry holds => ⟨entry, holds, rfl⟩

theorem Fulfils.sweep (fulfils : session.Fulfils promise rope shape log) :
    session.sweep.2.Fulfils promise rope shape log := by
  rcases session.sweep_eq with ⟨memos, reused, swept⟩
  exact fulfils.fewer (by rw [swept]) fun _ _ entry holds => ⟨entry, of_holds_sweep holds, rfl⟩

end Session

namespace Document

variable {document : Document V} {shape : Shape}

/-- All that the parser of a document keeps is as promised. -/
def Fulfils (document : Document V) (promise : Promise V) (shape : Shape) : Prop :=
  document.session.Fulfils promise document.rope shape document.log

theorem Fulfils.text_eq (fulfils : document.Fulfils promise shape) :
    document.text = String.ofList shape.text :=
  (Session.Fulfils.shows fulfils).text

theorem fulfils_ofString (promise : Promise V) (text : String) :
    ∃ shape, (ofString text : Document V).Fulfils promise shape ∧ shape.text = text.toList :=
  Session.newRope_fulfils promise {} Store.Sound.empty rfl text

/-- Moving the text to a new buffer. -/
theorem Fulfils.compact (fulfils : document.Fulfils promise shape) :
    ∃ shape', document.compact.Fulfils promise shape' ∧ shape'.text = shape.text := by
  have inside : document.session.Fulfils promise document.rope shape document.log := fulfils
  rcases Session.newRope_fulfils promise document.session.clearCache inside.sound rfl document.text
    with ⟨shape', fulfils', text⟩
  refine ⟨shape', fulfils', ?_⟩
  rw [text, fulfils.text_eq, String.toList_ofList]

/-- The text after an edit, which stays as it is if the range is refused. -/
def edited (text : List Char) (start stop : Nat) (insertion : List Char) : List Char :=
  if start ≤ stop ∧ stop ≤ text.length then text.take start ++ insertion ++ text.drop stop else text

/-- An edit of a document is about to be made.  Cursors out of use were released, and the text
to insert was added, so nothing is other than it was for the nodes that are kept. -/
structure Prepares (document : Document V) (promise : Promise V) (shape : Shape) (store : Store) :
    Prop where
  fulfils : { document.session with store }.Fulfils promise document.rope shape document.log
  revisions : document.session.store.SameRevisions store
  places : ∀ cursor ∈ document.session.heldCursors,
    store.place? cursor = document.session.store.place? cursor

/-- The document after an edit of its text. -/
def withEdit (document : Document V) (store : Store) (content : Buffer) (root : NodeId)
    (edit : Edit) : Document V :=
  { document with
    session := { document.session with store := store.put document.rope.buffer content }
    rope := ⟨document.rope.buffer, root⟩
    log := document.log.record edit }

/-- A range is refused, or the newest version is edited.  No kept node sits in the text that is
inserted. -/
theorem Fulfils.replace_cases (fulfils : document.Fulfils promise shape) (grammar : Grammar V)
    (start stop : Nat) (insertion : String) :
    let after := (document.replace grammar start stop insertion).2
    ∃ store, document.Prepares promise shape store ∧
      (¬(start ≤ stop ∧ stop ≤ shape.text.length) ∧
          after = { document with session := { document.session with store } } ∨
        start ≤ stop ∧ stop ≤ shape.text.length ∧ ∃ content used replaced removed move,
          (store.put document.rope.buffer content).Sound ∧
          (store.buffer document.rope.buffer).Advances content ∧
          (store.buffer document.rope.buffer).Replacement content shape start stop insertion.toList
            used replaced removed move ∧
          { document.session with store }.Avoids document.rope.buffer used ∧
          after = document.withEdit store content replaced.root
            ⟨start, stop, insertion.toList.length⟩) := by
  rcases Session.Fulfils.releaseUnused fulfils grammar document.tree.toList [] with
    ⟨store, becomes, released, kept⟩
  have revisions := document.session.sameRevisions_releaseUnused grammar document.tree.toList []
  rw [becomes] at revisions
  have sameRevisions := store.sameRevisions_rope document.rope.buffer insertion
  have adds := Store.adds_rope released.sound released.shows.lt_size insertion
  have made : Shape.root (.leaf (store.buffer document.rope.buffer).nodeCount insertion.toList) ≠
      shape.root := fun same => Nat.lt_irrefl _ (same ▸ released.current.shown.root_lt)
  have stays : ∀ cursor, (store.rope document.rope.buffer insertion).2.place? cursor =
      store.place? cursor := by
    intro cursor
    rw [Store.place?, Store.place?]
    by_cases same : cursor.buffer = document.rope.buffer
    · rw [same]
      exact adds.adds.anchor _
    · rw [adds.elsewhere _ same]
  have inserted : { document.session with
        store := (store.rope document.rope.buffer insertion).2 }.Fulfils promise document.rope shape
      document.log := by
    refine released.withStore (adds.evolves released.sound).sound ?_ fun cursor _ => stays cursor
    exact fun host current => (adds.adds.spares host current List.not_mem_nil).1
  simp only [Document.replace, becomes]
  generalize store.rope document.rope.buffer insertion = built
    at adds inserted stays sameRevisions ⊢
  rcases built with ⟨piece, withPiece⟩
  simp only at adds inserted stays sameRevisions ⊢
  have pieceBuffer : piece.buffer = document.rope.buffer := adds.buffer
  have pieceShows : withPiece.Shows piece
      (.leaf (store.buffer document.rope.buffer).nodeCount insertion.toList) :=
    ⟨adds.root, pieceBuffer ▸ adds.adds.current.shown⟩
  have prepares : document.Prepares promise shape withPiece :=
    ⟨inserted, fun id => (sameRevisions id).trans (revisions id), fun cursor member =>
      (stays cursor).trans (kept cursor member)⟩
  refine ⟨withPiece, prepares, ?_⟩
  by_cases ordered : start ≤ stop
  · by_cases within : stop ≤ shape.text.length
    · rcases Store.replace_current inserted.sound inserted.root inserted.current pieceShows
        (fun _ => ⟨adds.adds.current, made⟩) ordered within with
        ⟨replaced, removed, after, move, becomes', done⟩
      have advances := (withPiece.steps_replace document.rope start stop piece
        document.rope.buffer).advances
      rw [becomes', withPiece.buffer_put inserted.shows.lt_size, if_pos rfl] at advances
      have evolves := Store.evolves_put inserted.sound done.evolves
      have length : withPiece.length piece = insertion.toList.length := pieceShows.length
      rw [becomes']
      refine Or.inr ⟨ordered, within, after, _, replaced, removed, move, evolves.sound, advances,
        done, ?_, by rw [withEdit, length]⟩
      -- No kept cursor sits in the piece, which was not there when they were made.
      intro rule state entry held place host index seated sits inUsed
      rw [if_pos pieceBuffer, List.mem_singleton] at inUsed
      rcases released.kept rule state entry held with ⟨startBuffer, stopBuffer, first, second, front,
        back, _, _, startPlace, stopPlace, startSits, stopSits, _⟩
      have old : ∀ (cursor : Cursor) (place' : Place) (home : Shape) (own : Nat),
          store.place? cursor = some place' → withPiece.place? cursor = some place →
          (store.buffer document.rope.buffer).Sits home place' own → False := by
        intro cursor place' home own before now homeSits
        have same : place' = place :=
          Option.some.inj (before.symm.trans ((stays cursor).symm.trans now))
        rcases adds.adds.spares home homeSits.current List.not_mem_nil with ⟨stays, isNotPiece⟩
        have isHome := sits.host_eq ⟨stays, same ▸ homeSits.means⟩
        refine isNotPiece (List.mem_singleton.mpr ?_)
        rw [← isHome, inUsed, adds.root]
      rcases seated with isStart | isStop
      · exact old _ first front _ startPlace isStart startSits
      · exact old _ second back _ stopPlace isStop stopSits
    · rw [Store.replace_outOfBounds inserted.shows ordered (Nat.lt_of_not_le within)]
      exact Or.inl ⟨fun both => within both.2, rfl⟩
  · rw [Store.replace_inverted (Nat.lt_of_not_le ordered)]
    exact Or.inl ⟨fun both => ordered both.1, rfl⟩

theorem Fulfils.replace (fulfils : document.Fulfils promise shape) (grammar : Grammar V)
    (start stop : Nat) (insertion : String) :
    let after := (document.replace grammar start stop insertion).2
    (∃ shape', after.Fulfils promise shape' ∧
      shape'.text = edited shape.text start stop insertion.toList) ∧
    ∃ store, after.session = { document.session with store } := by
  rcases fulfils.replace_cases grammar start stop insertion with ⟨store, prepares,
    ⟨refused, becomes⟩ | ⟨ordered, within, content, used, replaced, removed, move, sound, _, done,
      avoids, becomes⟩⟩
  · rw [edited, if_neg refused]
    simp only [becomes]
    exact ⟨⟨shape, prepares.fulfils, rfl⟩, _, rfl⟩
  · rw [edited, if_pos ⟨ordered, within⟩]
    simp only [becomes]
    exact ⟨⟨replaced, prepares.fulfils.edit ordered within sound done avoids, done.replacedText⟩, _,
      rfl⟩

/-- Every node goes that pending edits have touched. -/
theorem Fulfils.evictEdited (fulfils : document.Fulfils promise shape) {margin : Nat}
    (same : promise.margin = margin) :
    (document.evictEdited margin).Fulfils promise document.rope shape {} := by
  subst same
  have inside : document.session.Fulfils promise document.rope shape document.log := fulfils
  rw [Document.evictEdited]
  split
  · next noEdits =>
      refine inside.settle rfl (fun _ _ _ holds => holds) fun _ _ _ _ _ _ _ _ _ _ _ _ _ _ => ?_
      rw [EditLog.overlaps, List.isEmpty_iff.mp noEdits]
      rfl
  · have drops : ∀ rule state entry, (document.session.evict fun node =>
          !document.session.store.sameDocument (document.session.store.position node.start)
            (document.session.store.positionAt document.rope 0) ||
          document.isEdited promise.margin (node.range document.session.store)).2.Holds rule state
            entry →
        document.session.Holds rule state entry ∧
          document.isEdited promise.margin (entry.node.range document.session.store) = false := by
      intro rule state entry holds
      rcases Session.of_holds_dropWhere holds with ⟨held, spared⟩
      rw [Bool.or_eq_false_iff] at spared
      exact ⟨held, spared.2⟩
    refine inside.settle rfl (fun _ _ _ holds => (drops _ _ _ holds).1) ?_
    intro rule state entry holds first second start stop startPlace stopPlace startBuffer stopBuffer
      startSits stopSits
    have quiet := (drops rule state entry holds).2
    have index : ∀ (cursor : Cursor) (place : Place) (own : Nat),
        cursor.buffer = document.rope.buffer →
        document.session.store.place? cursor = some place →
        (document.session.store.buffer document.rope.buffer).Sits shape place own →
        document.session.store.index cursor = own := by
      intro cursor place own inBuffer seated sits
      rw [Store.index, Store.position_of_place? seated, inBuffer]
      exact (sits.current.sits sits.settles).indexOf
    rw [isEdited, Tree.range, index _ first start startBuffer startPlace startSits,
      index _ second stop stopBuffer stopPlace stopSits] at quiet
    exact quiet

/-- Nothing is pending when a parse begins, at the start of the text. -/
theorem Fulfils.begin (fulfils : document.Fulfils promise shape) {margin : Nat}
    (same : promise.margin = margin) :
    let session := (document.evictEdited margin).beginSweep
    session.Fulfils promise document.rope shape {} ∧
      ∃ place, session.store.positionAt document.rope 0 = ⟨document.rope.buffer, place⟩ ∧
        shape.Stands place 0 := by
  have begun := (evictEdited fulfils same).beginSweep
  exact ⟨begun, begun.positionAt_start⟩

/-- An edit changes the texts that a session works on, and nothing else. -/
theorem replace_session (document : Document V) (grammar : Grammar V) (start stop : Nat)
    (insertion : String) : ∃ store,
      (document.replace grammar start stop insertion).2.session = { document.session with store } := by
  simp only [Document.replace]
  split <;> exact ⟨_, rfl⟩

/-- Dropping nodes changes the memos and the counters, and nothing else. -/
theorem evictEdited_eq (document : Document V) (margin : Nat) :
    ∃ memos stats, document.evictEdited margin = { document.session with memos, stats } := by
  rw [Document.evictEdited]
  split
  · exact ⟨_, _, rfl⟩
  · exact ⟨_, _, rfl⟩

end Document

end Reparse
