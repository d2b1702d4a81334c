import Reparse.Parsing.Document
import Reparse.Proofs.Edit.Surroundings
import Reparse.Proofs.Parsing.Memos
import Reparse.Proofs.Parsing.Releasing
import Reparse.Proofs.Rope.Places

namespace Reparse

/-!
# Kept nodes in an edited text

What a kept node is good for depends on its span and the text around it.  Such a
promise holds when the node is made.  It holds on for as long as the log of edits
does not report the span, because its surroundings are then what they were.

Both ends of a kept node sit in trees of the buffer, be it in the document or in
what was cut out of it.  They can be in the document again only if they never
left it, so nothing need be known of a node that was torn apart.
-/

/-- What is promised of the nodes that a session keeps.  A promise reaches as far
around a node as the margin says, and one character further.  If all rules go
`forward` no node ends before it starts. -/
structure Promise (V : Vocabulary) where
  margin : Nat
  forward : Prop
  good : V.Rule → V.State → V.Node → List Char → Range → Prop
  persists : ∀ {rule state node text text' span span'}, span.start ≤ span.stop →
    span'.start ≤ span'.stop → span.stop ≤ text.length → span'.stop ≤ text'.length →
    surroundings text' (margin + 1) span' = surroundings text (margin + 1) span →
    good rule state node text span → good rule state node text' span'

variable {V : Vocabulary}

namespace Store

/-- The ends of a node sit in current trees of a buffer.  A claim is made of them in
case that both trees are the given one. -/
def Seats (store : Store) (id : BufferId) (root : NodeId) (node : V.Node)
    (claim : Shape → Place → Place → Range → Prop) : Prop :=
  node.start.buffer = id ∧ node.stop.buffer = id ∧
    ∃ first second front back start stop, store.place? node.start = some first ∧
      store.place? node.stop = some second ∧ (store.buffer id).Sits front first start ∧
      (store.buffer id).Sits back second stop ∧
      (front.root = root → back.root = root → claim front first second ⟨start, stop⟩)

variable {store : Store} {id : BufferId} {root : NodeId} {node : V.Node}
  {claim : Shape → Place → Place → Range → Prop}

theorem Seats.imp {weaker : Shape → Place → Place → Range → Prop}
    (implies : ∀ shape first second span, claim shape first second span →
      weaker shape first second span)
    (seats : store.Seats id root node claim) : store.Seats id root node weaker := by
  rcases seats with ⟨startBuffer, stopBuffer, first, second, front, back, start, stop, startPlace,
    stopPlace, startSits, stopSits, holds⟩
  exact ⟨startBuffer, stopBuffer, first, second, front, back, start, stop, startPlace, stopPlace,
    startSits, stopSits, fun inDocument inDocument' =>
      implies _ _ _ _ (holds inDocument inDocument')⟩

/-- The trees of the buffer stay, and the cursors of the node do too. -/
theorem Seats.congr {after : Store} (seats : store.Seats id root node claim)
    (trees : ∀ shape, (store.buffer id).Current shape → (after.buffer id).Current shape)
    (start : after.place? node.start = store.place? node.start)
    (stop : after.place? node.stop = store.place? node.stop) : after.Seats id root node claim := by
  rcases seats with ⟨startBuffer, stopBuffer, first, second, front, back, index, index', startPlace,
    stopPlace, startSits, stopSits, holds⟩
  exact ⟨startBuffer, stopBuffer, first, second, front, back, index, index', start.trans startPlace,
    stop.trans stopPlace, ⟨trees front startSits.current, startSits.means⟩,
    ⟨trees back stopSits.current, stopSits.means⟩, holds⟩

end Store

namespace Promise

/-- What is known of a kept node while edits are pending. -/
def Claim (promise : Promise V) (log : EditLog) (rule : V.Rule) (state : V.State) (node : V.Node)
    (shape : Shape) (first second : Place) (span : Range) : Prop :=
  (promise.forward → shape.Leads first second span.start span.stop) ∧
    (span.start ≤ span.stop → log.overlaps span promise.margin = false →
      promise.good rule state node shape.text span)

end Promise

namespace Session

/-- All that a session keeps is as promised, for the text of a rope and the edits of it
that are pending. -/
structure Fulfils (session : Session V) (promise : Promise V) (rope : Rope) (shape : Shape)
    (log : EditLog) : Prop where
  sound : session.store.Sound
  current : (session.store.buffer rope.buffer).Current shape
  root : shape.root = rope.root
  kept : ∀ rule state entry, session.Holds rule state entry →
    session.store.Seats rope.buffer rope.root entry.node (promise.Claim log rule state entry.node)

variable {session : Session V} {promise : Promise V} {rope : Rope} {shape : Shape} {log : EditLog}

theorem Fulfils.shows (fulfils : session.Fulfils promise rope shape log) :
    session.store.Shows rope shape :=
  ⟨fulfils.root, fulfils.current.shown⟩

/-- What is promised may be replaced by something weaker, and fewer nodes may be kept. -/
theorem Fulfils.weaken {other : Session V} {weaker : Promise V}
    (fulfils : session.Fulfils promise rope shape log) (sameStore : other.store = session.store)
    (fewer : ∀ rule state entry, other.Holds rule state entry →
      ∃ old, session.Holds rule state old ∧ old.node = entry.node)
    (margin : weaker.margin = promise.margin) (forward : weaker.forward → promise.forward)
    (good : ∀ rule state node text span, promise.good rule state node text span →
      weaker.good rule state node text span) : other.Fulfils weaker rope shape log := by
  constructor
  · exact sameStore ▸ fulfils.sound
  · exact sameStore ▸ fulfils.current
  · exact fulfils.root
  · intro rule state entry holds
    rcases fewer rule state entry holds with ⟨old, held, same⟩
    rw [sameStore, ← same]
    refine (fulfils.kept rule state old held).imp fun host first second span claim => ?_
    refine ⟨fun forward' => claim.1 (forward forward'), fun ordered quiet => ?_⟩
    rw [margin] at quiet
    exact good _ _ _ _ _ (claim.2 ordered quiet)

theorem Fulfils.fewer {other : Session V} (fulfils : session.Fulfils promise rope shape log)
    (sameStore : other.store = session.store)
    (fewer : ∀ rule state entry, other.Holds rule state entry →
      ∃ old, session.Holds rule state old ∧ old.node = entry.node) :
    other.Fulfils promise rope shape log :=
  fulfils.weaken sameStore fewer rfl id fun _ _ _ _ _ holds => holds

/-- The store of a session may change where that affects no tree and no kept node. -/
theorem Fulfils.withStore {store : Store} (fulfils : session.Fulfils promise rope shape log)
    (sound : store.Sound)
    (trees : ∀ host, (session.store.buffer rope.buffer).Current host →
      (store.buffer rope.buffer).Current host)
    (places : ∀ cursor ∈ session.heldCursors, store.place? cursor = session.store.place? cursor) :
    { session with store }.Fulfils promise rope shape log := by
  refine ⟨sound, trees shape fulfils.current, fulfils.root, fun rule state entry holds => ?_⟩
  have held : session.Holds rule state entry := holds
  have cursors : entry.node.start ∈ session.heldCursors ∧ entry.node.stop ∈ session.heldCursors :=
    ⟨List.mem_flatMap.mpr ⟨entry, held.mem_entries, List.mem_cons_self⟩,
      List.mem_flatMap.mpr ⟨entry, held.mem_entries, List.mem_cons_of_mem _ List.mem_cons_self⟩⟩
  exact (fulfils.kept rule state entry held).congr trees (places _ cursors.1) (places _ cursors.2)

/-! ## Edits -/

/-- No end of a kept node sits in any of the trees. -/
def Avoids (session : Session V) (id : BufferId) (trees : List NodeId) : Prop :=
  ∀ rule state entry, session.Holds rule state entry → ∀ place host index,
    session.store.place? entry.node.start = some place ∨
      session.store.place? entry.node.stop = some place →
    (session.store.buffer id).Sits host place index → host.root ∉ trees

/-- A node under an edit of the document. -/
theorem Fulfils.edit {after : Buffer} {used : List NodeId} {move : Place → Place}
    {start stop : Nat} {text : List Char} {replaced removed : Shape}
    (fulfils : session.Fulfils promise rope shape log) (ordered : start ≤ stop)
    (within : stop ≤ shape.text.length) (sound : (session.store.put rope.buffer after).Sound)
    (done : (session.store.buffer rope.buffer).Replacement after shape start stop text used replaced
      removed move)
    (avoids : session.Avoids rope.buffer used) :
    { session with store := session.store.put rope.buffer after }.Fulfils promise
      ⟨rope.buffer, replaced.root⟩ replaced (log.record ⟨start, stop, text.length⟩) := by
  have content := session.store.buffer_put fulfils.shows.lt_size after
  have here : (session.store.put rope.buffer after).buffer rope.buffer = after := by
    rw [content, if_pos rfl]
  refine ⟨sound, here.symm ▸ done.replacedCurrent, rfl, fun rule state entry holds => ?_⟩
  have held : session.Holds rule state entry := holds
  rcases fulfils.kept rule state entry held with ⟨startBuffer, stopBuffer, first, second, front, back,
    index, index', startPlace, stopPlace, startSits, stopSits, claim⟩
  rcases done.sits fulfils.current ordered startSits
    (avoids rule state entry held first front index (Or.inl startPlace) startSits) with
    ⟨front', moved, startSits', startMoves⟩
  rcases done.sits fulfils.current ordered stopSits
    (avoids rule state entry held second back index' (Or.inr stopPlace) stopSits) with
    ⟨back', moved', stopSits', stopMoves⟩
  have places : ∀ cursor : Cursor, cursor.buffer = rope.buffer →
      (session.store.put rope.buffer after).place? cursor =
        (session.store.place? cursor).map move := by
    intro cursor inBuffer
    rw [Store.place?, inBuffer, here, done.anchor, ← inBuffer]
    rfl
  refine ⟨startBuffer, stopBuffer, move first, move second, front', back', moved, moved', ?_, ?_,
    here.symm ▸ startSits', here.symm ▸ stopSits', fun inDocument inDocument' => ?_⟩
  · rw [places _ startBuffer, startPlace]
    rfl
  · rw [places _ stopBuffer, stopPlace]
    rfl
  · rcases startMoves inDocument with ⟨rfl, indexMoves⟩
    rcases stopMoves inDocument' with ⟨rfl, indexMoves'⟩
    have isReplaced : front' = replaced :=
      startSits'.current.shown.unique done.replacedCurrent.shown inDocument
    have isReplaced' : back' = replaced :=
      stopSits'.current.shown.unique done.replacedCurrent.shown inDocument'
    subst isReplaced
    subst isReplaced'
    rcases claim fulfils.root fulfils.root with ⟨leads, good⟩
    constructor
    · exact fun forward => done.leads ordered stopSits (leads forward) startSits' stopSits'
    · intro forward quiet
      have misses : Edit.Misses ⟨start, stop, text.length⟩ promise.margin ⟨index, index'⟩
          ⟨moved, moved'⟩ := EditLog.misses_of_record ordered indexMoves indexMoves' forward quiet
      have quiet' := EditLog.quiet_of_record ordered misses quiet
      refine promise.persists misses.1 forward stopSits.means.le_length
        stopSits'.means.le_length ?_ (good misses.1 quiet')
      rw [done.replacedText]
      exact misses.surroundings_eq rfl ordered within

/-! ## Before a parse -/

/-- Once every node that the log reports is dropped nothing is pending for the others. -/
theorem Fulfils.settle {other : Session V} (fulfils : session.Fulfils promise rope shape log)
    (sameStore : other.store = session.store)
    (fewer : ∀ rule state entry, other.Holds rule state entry → session.Holds rule state entry)
    (quiet : ∀ rule state entry, other.Holds rule state entry → ∀ first second start stop,
      session.store.place? entry.node.start = some first →
      session.store.place? entry.node.stop = some second →
      entry.node.start.buffer = rope.buffer → entry.node.stop.buffer = rope.buffer →
      (session.store.buffer rope.buffer).Sits shape first start →
      (session.store.buffer rope.buffer).Sits shape second stop →
      log.overlaps ⟨start, stop⟩ promise.margin = false) :
    other.Fulfils promise rope shape {} := by
  constructor
  · exact sameStore ▸ fulfils.sound
  · exact sameStore ▸ fulfils.current
  · exact fulfils.root
  · intro rule state entry holds
    rcases fulfils.kept rule state entry (fewer rule state entry holds) with ⟨startBuffer, stopBuffer,
      first, second, front, back, start, stop, startPlace, stopPlace, startSits, stopSits, claim⟩
    rw [sameStore]
    refine ⟨startBuffer, stopBuffer, first, second, front, back, start, stop, startPlace, stopPlace,
      startSits, stopSits, fun inDocument inDocument' => ?_⟩
    have isDocument : front = shape :=
      startSits.current.shown.unique fulfils.current.shown (inDocument.trans fulfils.root.symm)
    have isDocument' : back = shape :=
      stopSits.current.shown.unique fulfils.current.shown (inDocument'.trans fulfils.root.symm)
    subst isDocument
    subst isDocument'
    rcases claim inDocument inDocument' with ⟨leads, good⟩
    exact ⟨leads, fun ordered _ => good ordered (quiet rule state entry holds first second start stop
      startPlace stopPlace startBuffer stopBuffer startSits stopSits)⟩

end Session

end Reparse
