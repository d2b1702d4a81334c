import Reparse.Proofs.Parsing.Seats

namespace Reparse

/-!
# Kept nodes that keep their footing

The index of a bucket may be made again when the starts of no two nodes have come to one
place.  The starts of two nodes stay apart if the first of them goes with the character that
it is in front of.  So it does, unless it is at the end of the text, where an edit may put
other text behind it.

A node that ends behind its start has a character in front of it.  One that consumes nothing
ends where it starts, so an edit at that place is one that touches it.  Such a node goes before
the next parse.  Hence if no node ends in front of its start then every node that is left when
a parse begins starts where its cursor is, and the session is a map again.
-/

variable {V : Vocabulary}

/-- What is known of a kept node whose start is at an index of the document, by the places of
its cursors. -/
structure Foothold (margin : Nat) (log : EditLog) (shape : Shape) (first second : Place)
    (index : Nat) : Prop where
  /-- The start is in front of a character, unless nothing was consumed. -/
  front : shape.spot false index = some first ∨ first = second
  starts : log.overlaps ⟨index, index⟩ margin = false → shape.Stands first index

/-- What is known of a kept node. -/
def Tree.Footed (node : V.Node) (store : Store) (margin : Nat) (log : EditLog) (shape : Shape) :
    Prop :=
  ∀ first second index, store.place? node.start = some first → store.place? node.stop = some second →
    shape.Means first index → Foothold margin log shape first second index

section Edits

variable {margin : Nat} {log : EditLog} {shape replaced removed : Shape} {first second : Place}
  {index start stop moved : Nat} {buffer content : Buffer} {text : List Char} {used : List NodeId}
  {move : Place → Place} {node : V.Node} {store : Store}

/-- What is known of a kept node is known after an edit, with the edit in the log. -/
theorem Foothold.edit (foothold : Foothold margin log shape first second index)
    (current : buffer.Current shape) (ordered : start ≤ stop) (within : stop ≤ shape.text.length)
    (done : buffer.Replacement content shape start stop text used replaced removed move)
    (means : replaced.Means (move first) moved)
    (moves : Edit.Moves ⟨start, stop, text.length⟩ index moved) :
    Foothold margin (log.record ⟨start, stop, text.length⟩) replaced (move first) (move second)
      moved := by
  constructor
  · rcases foothold.front with inFront | empty
    · rcases done.kept_of_spot inFront ⟨done.replacedCurrent, means⟩ with ⟨target, _, kept, same⟩
      rw [if_neg Bool.false_ne_true] at same
      exact Or.inl (same ▸ kept)
    · exact Or.inr (congrArg move empty)
  · intro quiet
    have misses : Edit.Misses ⟨start, stop, text.length⟩ margin ⟨index, index⟩ ⟨moved, moved⟩ :=
      EditLog.misses_of_record ordered moves moves (Nat.le_refl _) quiet
    have stands := foothold.starts (EditLog.quiet_of_record ordered misses quiet)
    exact done.stands current ordered within stands misses.apart.1

theorem Tree.Footed.edit {after : Store} (footed : node.Footed store margin log shape)
    (current : buffer.Current shape) (ordered : start ≤ stop) (within : stop ≤ shape.text.length)
    (done : buffer.Replacement content shape start stop text used replaced removed move)
    (starts : node.start.Follows store after shape replaced move ⟨start, stop, text.length⟩)
    (stops : node.stop.Follows store after shape replaced move ⟨start, stop, text.length⟩) :
    node.Footed after margin (log.record ⟨start, stop, text.length⟩) replaced := by
  rcases starts with ⟨first, before, now, back⟩
  rcases stops with ⟨second, before', now', _⟩
  intro one two moved there there' means
  cases now.symm.trans there
  cases now'.symm.trans there'
  rcases back moved means with ⟨index, was, moves⟩
  exact (footed first second index before before' was).edit current ordered within done means moves

/-- Cursors may come and go while the node stays where it is. -/
theorem Tree.Footed.congr {after : Store} (footed : node.Footed store margin log shape)
    (start : after.place? node.start = store.place? node.start)
    (stop : after.place? node.stop = store.place? node.stop) :
    node.Footed after margin log shape := by
  rw [Tree.Footed, start, stop]
  exact footed

/-- A node that the log does not report starts where its cursor is. -/
theorem Tree.Footed.stands {id : BufferId} (footed : node.Footed store margin log shape)
    (current : (store.buffer id).Current shape) (startBuffer : node.start.buffer = id)
    (stopBuffer : node.stop.buffer = id) (startPlace : store.place? node.start = some first)
    (stopPlace : store.place? node.stop = some second) (means : shape.Means first index)
    (quiet : log.overlaps (node.range store) margin = false) :
    node.start.StandsAt store id shape index := by
  have foothold := footed first second index startPlace stopPlace means
  refine ⟨startBuffer, first, startPlace, ?_⟩
  rcases foothold.front with inFront | empty
  · exact Shape.stands_of_spot inFront
  · -- Nothing was consumed, so the node ends where it starts.
    have isIndex : ∀ cursor : Cursor, cursor.buffer = id → store.place? cursor = some first →
        store.index cursor = index := by
      intro cursor inBuffer seated
      have sits : (store.buffer id).Sits shape first index := ⟨current, means⟩
      rw [Store.index, Store.position_of_place? seated, inBuffer]
      exact (current.sits sits.settles).indexOf
    rw [Tree.range, isIndex _ startBuffer startPlace, isIndex _ stopBuffer (empty ▸ stopPlace)]
      at quiet
    exact foothold.starts quiet

end Edits

/-! ## Documents -/

namespace Document

/-- What is known of the memos of a document between two parses. -/
structure Tends (document : Document V) (sameness : Sameness V) (margin : Nat) (shape : Shape) :
    Prop where
  dormant : document.session.Dormant sameness document.rope.buffer shape
  footed : ∀ rule state entry, document.session.Holds rule state entry →
    entry.node.Footed document.session.store margin document.log shape
  settled : document.log.isEmpty = true → ∀ rule state entry,
    document.session.Holds rule state entry →
      ∃ index, entry.node.start.StandsAt document.session.store document.rope.buffer shape index

variable {document : Document V} {sameness : Sameness V} {margin : Nat} {shape : Shape}
  {promise : Promise V} {store : Store}

theorem tends_empty (empty : document.session.memos = []) (sameness : Sameness V) (margin : Nat)
    (shape : Shape) : document.Tends sameness margin shape := by
  have nothing : ∀ rule state entry, ¬document.session.Holds rule state entry := by
    rintro rule state entry ⟨memo, member, _⟩
    rw [empty] at member
    exact absurd member List.not_mem_nil
  exact ⟨Session.dormant_empty empty sameness _ shape,
    fun rule state entry holds => absurd holds (nothing rule state entry),
    fun _ rule state entry holds => absurd holds (nothing rule state entry)⟩

/-- Preparing an edit leaves the cursors of kept nodes in place. -/
theorem Prepares.cursors (prepares : document.Prepares promise shape store) {rule : V.Rule}
    {state : V.State} {entry : Entry V} (holds : document.session.Holds rule state entry) :
    store.place? entry.node.start = document.session.store.place? entry.node.start ∧
      store.place? entry.node.stop = document.session.store.place? entry.node.stop :=
  ⟨prepares.places _ (List.mem_flatMap.mpr ⟨entry, holds.mem_entries, List.mem_cons_self⟩),
    prepares.places _ (List.mem_flatMap.mpr
      ⟨entry, holds.mem_entries, List.mem_cons_of_mem _ List.mem_cons_self⟩)⟩

/-- An edit is prepared. -/
theorem Tends.prepares (tends : document.Tends sameness margin shape)
    (prepares : document.Prepares promise shape store) :
    Tends { document with session := { document.session with store } } sameness margin shape := by
  refine ⟨tends.dormant.congr (prepares.revisions _) fun rule state entry holds =>
      (prepares.cursors holds).1, fun rule state entry holds => ?_,
    fun noEdits rule state entry holds => ?_⟩
  · rcases prepares.cursors holds with ⟨start, stop⟩
    exact (tends.footed rule state entry holds).congr start stop
  · rcases tends.settled noEdits rule state entry holds with ⟨index, inBuffer, place, seated, stands⟩
    exact ⟨index, inBuffer, place, (prepares.cursors holds).1.trans seated, stands⟩

/-- An edit is made. -/
theorem Tends.edit {content : Buffer} {used : List NodeId} {replaced removed : Shape}
    {move : Place → Place} {start stop : Nat} {text : List Char}
    (tends : document.Tends sameness margin shape) (fulfils : document.Fulfils promise shape)
    (ordered : start ≤ stop) (within : stop ≤ shape.text.length)
    (advances : (document.session.store.buffer document.rope.buffer).Advances content)
    (done : (document.session.store.buffer document.rope.buffer).Replacement content shape start stop
      text used replaced removed move)
    (avoids : document.session.Avoids document.rope.buffer used) :
    (document.withEdit document.session.store content replaced.root
      ⟨start, stop, text.length⟩).Tends sameness margin replaced := by
  have inside : document.session.Fulfils promise document.rope shape document.log := fulfils
  refine ⟨tends.dormant.edit inside.shows.lt_size inside.current ordered advances done
      (fun rule state entry holds => (inside.cursors holds).1)
      (fun rule state entry holds => (inside.follows ordered done avoids holds).1),
    fun rule state entry holds => ?_, fun noEdits => ?_⟩
  · rcases inside.follows ordered done avoids holds with ⟨starts, stops⟩
    exact (tends.footed rule state entry holds).edit inside.current ordered within done starts stops
  · rcases EditLog.record_covers document.log ⟨start, stop, text.length⟩ with ⟨range, member, _⟩
    have none : (document.log.record ⟨start, stop, text.length⟩).ranges = [] :=
      List.isEmpty_iff.mp noEdits
    rw [none] at member
    exact absurd member List.not_mem_nil

/-- When the next parse begins the session is a map, and every node that is kept starts where its
cursor is. -/
theorem Tends.begins (tends : document.Tends sameness margin shape)
    (fulfils : document.Fulfils promise shape) (lawful : sameness.Lawful) :
    let begun := (document.evictEdited margin).beginSweep
    begun.Maps sameness document.rope.buffer ∧ begun.store = document.session.store ∧
      ∀ rule state entry, begun.Holds rule state entry →
        (∃ own, document.session.Holds rule own entry) ∧
        ∃ index, entry.node.start.StandsAt begun.store document.rope.buffer shape index := by
  have inside : document.session.Fulfils promise document.rope shape document.log := fulfils
  rcases Document.evictEdited_keeps tends.dormant margin with ⟨dormant, store, _, left⟩
  generalize document.evictEdited margin = evicted at dormant store left ⊢
  have same : evicted.beginSweep.store = document.session.store := store
  have begun : evicted.beginSweep.Dormant sameness document.rope.buffer shape := dormant.of_eq rfl rfl
  have stands : ∀ rule state entry, evicted.beginSweep.Holds rule state entry →
      (∃ own, document.session.Holds rule own entry) ∧ ∃ index,
        entry.node.start.StandsAt evicted.beginSweep.store document.rope.buffer shape index := by
    intro rule state entry holds
    have held : evicted.Holds rule state entry := holds
    rw [same]
    rcases (left rule state entry).mp (held.keeps (lawful.refl state)) with ⟨keeps, reason⟩
    rcases keeps.holds with ⟨own, _, holds⟩
    refine ⟨⟨own, holds⟩, ?_⟩
    rcases reason with noEdits | ⟨attached, quiet⟩
    · exact tends.settled noEdits rule own entry holds
    · rcases inside.cursors holds with ⟨startBuffer, stopBuffer, first, second, startPlace, stopPlace,
        located⟩
      rcases located attached with ⟨index, means⟩
      exact ⟨index, (tends.footed rule own entry holds).stands inside.current startBuffer stopBuffer
        startPlace stopPlace means quiet⟩
  refine ⟨begun.maps (same ▸ inside.current) fun rule state entry holds =>
    (stands rule state entry holds).2, same, stands⟩

end Document

end Reparse
