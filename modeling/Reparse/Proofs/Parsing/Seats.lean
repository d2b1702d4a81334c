import Reparse.Proofs.Parsing.Documents
import Reparse.Proofs.Parsing.Tables

namespace Reparse

/-!
# The index of a bucket between two parses

Between two parses the cursors of kept nodes move with the text, and nobody looks at an index.
For a while it is still right.  As long as the revision of the buffer is the one that the index
was made under no anchor has moved, so the index has every entry under the place of its cursor.
Once the revision has grown it will be made again.

An index that is made again is exact if no two entries start at one place.  Of two entries that
start at different indices the first one starts in front of a character.  It goes with that
character, so as long as both starts are in the document they stay apart.
-/

variable {V : Vocabulary}

/-- Where something stands in the newest version, the place is settled. -/
theorem Buffer.Current.rests {buffer : Buffer} {shape : Shape} (current : buffer.Current shape)
    (formed : buffer.WellFormed) {place : Place} {index : Nat} (stands : shape.Stands place index) :
    buffer.Rests place := by
  have rests := formed.rests_settle (current.sits stands).hasPlace
  rw [current.settle stands.means, ← current.shown.eq_locate stands] at rests
  exact rests

/-- A cursor moves along with an edit.  If it is in the document afterwards it was there before. -/
def Cursor.Follows (cursor : Cursor) (before after : Store) (shape replaced : Shape)
    (move : Place → Place) (edit : Edit) : Prop :=
  ∃ place, before.place? cursor = some place ∧ after.place? cursor = some (move place) ∧
    ∀ moved, replaced.Means (move place) moved →
      ∃ index, shape.Means place index ∧ edit.Moves index moved

/-- A cursor stands at an index of the document. -/
def Cursor.StandsAt (cursor : Cursor) (store : Store) (id : BufferId) (shape : Shape)
    (index : Nat) : Prop :=
  cursor.buffer = id ∧ ∃ place, store.place? cursor = some place ∧ shape.Stands place index

namespace Cursor.StandsAt

variable {cursor : Cursor} {store : Store} {id : BufferId} {shape : Shape} {index : Nat}

/-- Where a cursor stands its place is its position. -/
theorem position (stands : cursor.StandsAt store id shape index)
    (current : (store.buffer id).Current shape) :
    ∃ place, store.place? cursor = some place ∧ shape.Stands place index ∧
      store.position cursor = ⟨id, place⟩ := by
  rcases stands with ⟨inBuffer, place, seated, stands⟩
  refine ⟨place, seated, stands, ?_⟩
  rw [Store.position_of_place? seated, inBuffer, current.settle stands.means,
    ← current.shown.eq_locate stands]

theorem index_eq (stands : cursor.StandsAt store id shape index)
    (current : (store.buffer id).Current shape) : store.index cursor = index := by
  rcases stands.position current with ⟨place, _, stands, position⟩
  rw [Store.index, position]
  exact current.indexOf stands.means

/-- A cursor that stands in the document is at a position if it stands at its index. -/
theorem position_iff (stands : cursor.StandsAt store id shape index)
    (current : (store.buffer id).Current shape) {place : Place} {own : Nat}
    (standing : shape.Stands place own) : store.position cursor = ⟨id, place⟩ ↔ index = own := by
  rcases stands.position current with ⟨place', _, stands', position⟩
  rw [position, Position.mk.injEq, and_iff_right rfl]
  constructor
  · rintro rfl
    exact (current.indexOf stands'.means).symm.trans (current.indexOf standing.means)
  · rintro rfl
    exact stands'.unique standing

theorem position_eq {cursor' : Cursor} (stands : cursor.StandsAt store id shape index)
    (stands' : cursor'.StandsAt store id shape index) (current : (store.buffer id).Current shape) :
    store.position cursor = store.position cursor' := by
  rcases stands'.position current with ⟨place, _, standing, position⟩
  exact ((stands.position_iff current standing).mpr rfl).trans position.symm

theorem keeps {after : Store} (stands : cursor.StandsAt store id shape index)
    (keeps : store.Keeps after) : cursor.StandsAt after id shape index := by
  rcases stands with ⟨inBuffer, place, seated, stands⟩
  exact ⟨inBuffer, place, keeps.places cursor place seated, stands⟩

end Cursor.StandsAt

namespace Session

variable {session : Session V} {promise : Promise V} {rope : Rope} {shape : Shape} {log : EditLog}

/-- The cursors of all kept nodes follow an edit. -/
theorem Fulfils.follows {content : Buffer} {used : List NodeId} {move : Place → Place}
    {start stop : Nat} {text : List Char} {replaced removed : Shape}
    (fulfils : session.Fulfils promise rope shape log) (ordered : start ≤ stop)
    (done : (session.store.buffer rope.buffer).Replacement content shape start stop text used
      replaced removed move)
    (avoids : session.Avoids rope.buffer used)
    {rule : V.Rule} {state : V.State} {entry : Entry V} (holds : session.Holds rule state entry) :
    let after := session.store.put rope.buffer content
    entry.node.start.Follows session.store after shape replaced move ⟨start, stop, text.length⟩ ∧
      entry.node.stop.Follows session.store after shape replaced move
        ⟨start, stop, text.length⟩ := by
  have here : (session.store.put rope.buffer content).buffer rope.buffer = content := by
    rw [session.store.buffer_put fulfils.shows.lt_size, if_pos rfl]
  have follows : ∀ (cursor : Cursor) (place : Place) (host : Shape) (index : Nat),
      cursor.buffer = rope.buffer → session.store.place? cursor = some place →
      (session.store.buffer rope.buffer).Sits host place index → host.root ∉ used →
      cursor.Follows session.store (session.store.put rope.buffer content) shape replaced move
        ⟨start, stop, text.length⟩ := by
    intro cursor place host index inBuffer seated sits notUsed
    rcases done.sits fulfils.current ordered sits notUsed with ⟨host', moved, sits', back⟩
    refine ⟨place, seated, ?_, fun other means => ?_⟩
    · rw [Store.place?, inBuffer, here, done.anchor, ← inBuffer,
        show (session.store.buffer cursor.buffer).anchor? cursor.anchor = some place from seated,
        Option.map_some]
    · have lands : content.Sits replaced (move place) other := ⟨done.replacedCurrent, means⟩
      rcases back (congrArg Shape.root (sits'.host_eq lands)) with ⟨rfl, moves⟩
      exact ⟨index, sits.means, lands.index_eq sits' ▸ moves⟩
  rcases fulfils.kept rule state entry holds with ⟨startBuffer, stopBuffer, first, second, front,
    back, index, index', startPlace, stopPlace, startSits, stopSits, _⟩
  exact ⟨follows _ first front index startBuffer startPlace startSits
      (avoids rule state entry holds first front index (Or.inl startPlace) startSits),
    follows _ second back index' stopBuffer stopPlace stopSits
      (avoids rule state entry holds second back index' (Or.inr stopPlace) stopSits)⟩

end Session

/-- Two cursors are at different indices, if both are in the document, and the first one is in
front of a character. -/
def Cursor.Apart (cursor cursor' : Cursor) (store : Store) (shape : Shape) : Prop :=
  ∀ first second index index', store.place? cursor = some first → store.place? cursor' = some second →
    shape.Means first index → shape.Means second index' →
    shape.spot false index = some first ∧ index < index' ∨
      shape.spot false index' = some second ∧ index' < index

theorem Cursor.Apart.edit {cursor cursor' : Cursor} {before after : Store} {buffer content : Buffer}
    {shape replaced removed : Shape} {start stop : Nat} {text : List Char} {used : List NodeId}
    {move : Place → Place} (apart : cursor.Apart cursor' before shape)
    (current : buffer.Current shape) (ordered : start ≤ stop)
    (done : buffer.Replacement content shape start stop text used replaced removed move)
    (follows : cursor.Follows before after shape replaced move ⟨start, stop, text.length⟩)
    (follows' : cursor'.Follows before after shape replaced move ⟨start, stop, text.length⟩) :
    cursor.Apart cursor' after replaced := by
  intro one two moved moved' seated seated' means means'
  rcases follows with ⟨first, before, now, back⟩
  rcases follows' with ⟨second, before', now', back'⟩
  cases now.symm.trans seated
  cases now'.symm.trans seated'
  rcases back moved means with ⟨index, was, _⟩
  rcases back' moved' means' with ⟨index', was', _⟩
  have lands : content.Sits replaced (move first) moved := ⟨done.replacedCurrent, means⟩
  have lands' : content.Sits replaced (move second) moved' := ⟨done.replacedCurrent, means'⟩
  rcases apart first second index index' before before' was was' with ⟨inFront, earlier⟩ |
    ⟨inFront, earlier⟩
  · exact Or.inl (done.precedes ordered ⟨current, was'⟩ inFront earlier lands lands')
  · exact Or.inr (done.precedes ordered ⟨current, was⟩ inFront earlier lands' lands)

namespace Bucket

/-- Where the cursor at the start of an entry is, settled or not. -/
def seats (store : Store) (entry : Entry V) : Option Position :=
  (store.place? entry.node.start).map (⟨entry.node.start.buffer, ·⟩)

/-- What is known of a bucket between two parses. -/
structure Idle (bucket : Bucket V) (store : Store) (id : BufferId) (shape : Shape) : Prop where
  spare : bucket.Spare
  behind : bucket.revision ≤ (store.buffer id).revision
  exact : bucket.revision = (store.buffer id).revision → bucket.Exact (seats store)
  apart : ∀ slot slot' entry entry', bucket.Stores slot entry → bucket.Stores slot' entry' →
    slot ≠ slot' → entry.node.start.Apart entry'.node.start store shape

variable {bucket : Bucket V} {store : Store} {id : BufferId} {shape : Shape}

/-- Cursors may come and go while the kept nodes stay where they are. -/
theorem Idle.congr {after : Store} (idle : bucket.Idle store id shape)
    (revision : (after.buffer id).revision = (store.buffer id).revision)
    (places : ∀ entry ∈ bucket.live, after.place? entry.node.start = store.place? entry.node.start) :
    bucket.Idle after id shape := by
  have same : ∀ slot entry, bucket.Stores slot entry →
      after.place? entry.node.start = store.place? entry.node.start :=
    fun slot entry stores => places entry (mem_live.mpr ⟨slot, stores⟩)
  refine ⟨idle.spare, revision ▸ idle.behind, fun upToDate => ?_, ?_⟩
  · refine (idle.exact (revision ▸ upToDate)).congr fun slot entry stores => ?_
    rw [seats, same slot entry stores, seats]
  · intro slot slot' entry entry' stores stores' different
    rw [Cursor.Apart, same slot entry stores, same slot' entry' stores']
    exact idle.apart slot slot' entry entry' stores stores' different

theorem Idle.edit {content : Buffer} {replaced removed : Shape} {start stop : Nat}
    {text : List Char} {used : List NodeId} {move : Place → Place}
    (idle : bucket.Idle store id shape) (within : id < store.buffers.size)
    (current : (store.buffer id).Current shape) (ordered : start ≤ stop)
    (advances : (store.buffer id).Advances content)
    (done : (store.buffer id).Replacement content shape start stop text used replaced removed move)
    (inBuffer : ∀ entry ∈ bucket.live, entry.node.start.buffer = id)
    (follows : ∀ entry ∈ bucket.live, entry.node.start.Follows store (store.put id content) shape
      replaced move ⟨start, stop, text.length⟩) :
    bucket.Idle (store.put id content) id replaced := by
  have here : (store.put id content).buffer id = content := by
    rw [store.buffer_put within, if_pos rfl]
  refine ⟨idle.spare, ?_, fun upToDate => ?_, ?_⟩
  · rw [here]
    exact Nat.le_trans idle.behind advances.le
  · rw [here] at upToDate
    have still : content.revision = (store.buffer id).revision :=
      Nat.le_antisymm (upToDate ▸ idle.behind) advances.le
    refine (idle.exact (upToDate.trans still)).congr fun slot entry stores => ?_
    have home := inBuffer entry (mem_live.mpr ⟨slot, stores⟩)
    rw [seats, seats, Store.place?, Store.place?, home, here, advances.anchor? still]
  · intro slot slot' entry entry' stores stores' different
    exact (idle.apart slot slot' entry entry' stores stores' different).edit current ordered done
      (follows entry (mem_live.mpr ⟨slot, stores⟩)) (follows entry' (mem_live.mpr ⟨slot', stores'⟩))

theorem Idle.dropWhere (idle : bucket.Idle store id shape) (doomed : Entry V → Bool) :
    (bucket.dropWhere doomed).Idle store id shape := by
  refine ⟨idle.spare.dropWhere doomed, idle.behind, fun upToDate => ?_, ?_⟩
  · have same : bucket.revision = (store.buffer id).revision := upToDate
    exact (idle.exact same).dropWhere doomed
  · intro slot slot' entry entry' stores stores'
    exact idle.apart slot slot' entry entry' ((stores_dropWhere ..).mp stores).1
      ((stores_dropWhere ..).mp stores').1

/-- Nodes that stand in the document are found by their places. -/
theorem starts_eq_seats {entry : Entry V} (current : (store.buffer id).Current shape)
    (stands : ∃ index, entry.node.start.StandsAt store id shape index) :
    starts store entry = seats store entry := by
  rcases stands with ⟨index, stands⟩
  rcases stands.position current with ⟨place, seated, _, position⟩
  rw [starts, seats, position, seated, Option.map_some, stands.1]

/-- A bucket is a table when a parse begins, if all that it holds stands in the document. -/
theorem Idle.tidy (idle : bucket.Idle store id shape)
    (current : (store.buffer id).Current shape)
    (stands : ∀ entry ∈ bucket.live, ∃ index, entry.node.start.StandsAt store id shape index) :
    bucket.Tidy store (store.buffer id).revision := by
  refine tidy_of idle.behind (fun upToDate => ?_) ?_ idle.spare
  · exact (idle.exact upToDate).congr fun slot entry stores =>
      starts_eq_seats current (stands entry (mem_live.mpr ⟨slot, stores⟩))
  · intro slot slot' entry entry' position stores stores' begins begins'
    rcases stands entry (mem_live.mpr ⟨slot, stores⟩) with ⟨index, standsAt⟩
    rcases stands entry' (mem_live.mpr ⟨slot', stores'⟩) with ⟨index', standsAt'⟩
    rcases standsAt.position current with ⟨place, there, standing, isPosition⟩
    rcases standsAt'.position current with ⟨place', there', standing', isPosition'⟩
    have same : place = place' := by
      have positions := (Option.some.inj begins).trans (Option.some.inj begins').symm
      rw [isPosition, isPosition'] at positions
      exact congrArg Position.place positions
    subst same
    have sameIndex : index = index' :=
      (current.indexOf standing.means).symm.trans (current.indexOf standing'.means)
    refine Classical.byContradiction fun different => ?_
    rcases idle.apart slot slot' entry entry' stores stores' different place place index index'
      there there' standing.means standing'.means with ⟨_, before⟩ | ⟨_, before⟩
    · exact Nat.ne_of_lt before sameIndex
    · exact Nat.ne_of_lt before sameIndex.symm

/-- A table may be left to itself when a parse has ended. -/
theorem Tidy.idle (tidy : bucket.Tidy store (store.buffer id).revision)
    (current : (store.buffer id).Current shape)
    (stands : ∀ entry ∈ bucket.live, ∃ index, entry.node.start.StandsAt store id shape index) :
    bucket.Idle store id shape := by
  have told : ∀ slot entry, bucket.Stores slot entry → seats store entry = starts store entry :=
    fun slot entry stores =>
      (starts_eq_seats current (stands entry (mem_live.mpr ⟨slot, stores⟩))).symm
  refine ⟨tidy.spare, tidy.behind, fun upToDate => ?_, ?_⟩
  · have exact := tidy.indexed
    rw [refresh_of_eq upToDate] at exact
    exact exact.congr told
  · intro slot slot' entry entry' stores stores' different first second index index' there there'
      means means'
    rcases stands entry (mem_live.mpr ⟨slot, stores⟩) with ⟨own, standsAt⟩
    rcases stands entry' (mem_live.mpr ⟨slot', stores'⟩) with ⟨own', standsAt'⟩
    rcases standsAt.position current with ⟨place, seated, standing, position⟩
    rcases standsAt'.position current with ⟨place', seated', standing', position'⟩
    cases there.symm.trans seated
    cases there'.symm.trans seated'
    cases (current.indexOf means).symm.trans (current.indexOf standing.means)
    cases (current.indexOf means').symm.trans (current.indexOf standing'.means)
    rcases Nat.lt_trichotomy index index' with before | same | before
    · exact Or.inl ⟨current.shown.spot_of_stands standing
        (Nat.lt_of_lt_of_le before means'.le_length), before⟩
    · subst same
      cases standing.unique standing'
      refine absurd ?_ different
      exact tidy.distinct slot slot' entry entry' _ stores stores' (congrArg some position)
        (congrArg some position')
    · exact Or.inr ⟨current.shown.spot_of_stands standing'
        (Nat.lt_of_lt_of_le before means.le_length), before⟩

end Bucket

namespace Session

variable {session : Session V} {sameness : Sameness V} {id : BufferId} {shape : Shape}

/-- What is known of all buckets between two parses. -/
structure Dormant (session : Session V) (sameness : Sameness V) (id : BufferId) (shape : Shape) :
    Prop where
  names : (session.memos.map Prod.fst).Nodup
  sorted : ∀ rule memo, (rule, memo) ∈ session.memos → memo.Sorted sameness
  buckets : ∀ rule memo bucket, (rule, memo) ∈ session.memos → memo.Contains bucket →
    bucket.Idle session.store id shape

theorem dormant_empty (empty : session.memos = []) (sameness : Sameness V) (id : BufferId)
    (shape : Shape) : session.Dormant sameness id shape := by
  have nothing : ∀ pair, pair ∉ session.memos := fun pair => empty ▸ List.not_mem_nil
  refine ⟨?_, fun rule memo member => absurd member (nothing _),
    fun rule memo bucket member => absurd member (nothing _)⟩
  rw [empty]
  exact List.nodup_nil

theorem Dormant.congr {after : Store} (dormant : session.Dormant sameness id shape)
    (revision : (after.buffer id).revision = (session.store.buffer id).revision)
    (places : ∀ rule state entry, session.Holds rule state entry →
      after.place? entry.node.start = session.store.place? entry.node.start) :
    { session with store := after }.Dormant sameness id shape := by
  refine ⟨dormant.names, dormant.sorted, fun rule memo bucket member contains => ?_⟩
  exact (dormant.buckets rule memo bucket member contains).congr revision fun entry live =>
    places rule bucket.state entry ⟨memo, member, bucket, contains, rfl, live⟩

theorem Dormant.edit {content : Buffer} {replaced removed : Shape} {start stop : Nat}
    {text : List Char} {used : List NodeId} {move : Place → Place}
    (dormant : session.Dormant sameness id shape) (within : id < session.store.buffers.size)
    (current : (session.store.buffer id).Current shape) (ordered : start ≤ stop)
    (advances : (session.store.buffer id).Advances content)
    (done : (session.store.buffer id).Replacement content shape start stop text used replaced removed
      move)
    (inBuffer : ∀ rule state entry, session.Holds rule state entry → entry.node.start.buffer = id)
    (follows : ∀ rule state entry, session.Holds rule state entry →
      entry.node.start.Follows session.store (session.store.put id content) shape replaced move
        ⟨start, stop, text.length⟩) :
    { session with store := session.store.put id content }.Dormant sameness id replaced := by
  refine ⟨dormant.names, dormant.sorted, fun rule memo bucket member contains => ?_⟩
  have holds : ∀ entry ∈ bucket.live, session.Holds rule bucket.state entry :=
    fun entry live => ⟨memo, member, bucket, contains, rfl, live⟩
  exact (dormant.buckets rule memo bucket member contains).edit within current ordered advances done
    (fun entry live => inBuffer rule _ entry (holds entry live))
    (fun entry live => follows rule _ entry (holds entry live))

/-- This depends on the memos and the texts, and on nothing else. -/
theorem Dormant.of_eq {session' : Session V} (dormant : session.Dormant sameness id shape)
    (memos : session'.memos = session.memos) (store : session'.store = session.store) :
    session'.Dormant sameness id shape := by
  constructor
  · rw [memos]
    exact dormant.names
  · rw [memos]
    exact dormant.sorted
  · rw [memos, store]
    exact dormant.buckets

theorem Dormant.dropWhere (dormant : session.Dormant sameness id shape) (doomed : Entry V → Bool) :
    (session.dropWhere doomed).2.Dormant sameness id shape := by
  have origin : ∀ rule memo, (rule, memo) ∈ (session.dropWhere doomed).2.memos →
      ∃ old, (rule, old) ∈ session.memos ∧ memo = old.dropWhere doomed := by
    intro rule memo member
    simp only [Session.dropWhere] at member
    rcases List.mem_map.mp member with ⟨⟨rule, old⟩, there, same⟩
    cases same
    exact ⟨old, there, rfl⟩
  refine ⟨?_, fun rule memo member => ?_, fun rule memo bucket member contains => ?_⟩
  · simp only [Session.dropWhere, List.map_map, Function.comp_def]
    exact dormant.names
  · rcases origin rule memo member with ⟨old, there, rfl⟩
    exact (dormant.sorted rule old there).dropWhere
  · rcases origin rule memo member with ⟨old, there, rfl⟩
    rcases Memo.of_contains_dropWhere contains with ⟨before, contained, rfl⟩
    exact (dormant.buckets rule old before there contained).dropWhere doomed

/-- The session is a map when a parse begins. -/
theorem Dormant.maps (dormant : session.Dormant sameness id shape)
    (current : (session.store.buffer id).Current shape)
    (stands : ∀ rule state entry, session.Holds rule state entry →
      ∃ index, entry.node.start.StandsAt session.store id shape index) :
    session.Maps sameness id := by
  refine ⟨dormant.names, fun rule memo member => ⟨dormant.sorted rule memo member, ?_⟩⟩
  intro bucket contains
  exact (dormant.buckets rule memo bucket member contains).tidy current fun entry live =>
    stands rule bucket.state entry ⟨memo, member, bucket, contains, rfl, live⟩

/-- The map may be left to itself when the parse has ended. -/
theorem Maps.dormant (maps : session.Maps sameness id)
    (current : (session.store.buffer id).Current shape)
    (stands : ∀ rule state entry, session.Holds rule state entry →
      ∃ index, entry.node.start.StandsAt session.store id shape index) :
    session.Dormant sameness id shape := by
  refine ⟨maps.names, fun rule memo member => (maps.memos rule memo member).sorted, ?_⟩
  intro rule memo bucket member contains
  exact ((maps.memos rule memo member).buckets bucket contains).idle current fun entry live =>
    stands rule bucket.state entry ⟨memo, member, bucket, contains, rfl, live⟩

/-! ## Before a parse -/

/-- The cursors of a kept node have places, and its start means an index if it is in the
document. -/
theorem Fulfils.cursors {promise : Promise V} {rope : Rope} {log : EditLog} {rule : V.Rule}
    {state : V.State} {entry : Entry V} (fulfils : session.Fulfils promise rope shape log)
    (holds : session.Holds rule state entry) :
    entry.node.start.buffer = rope.buffer ∧ entry.node.stop.buffer = rope.buffer ∧
      ∃ first second, session.store.place? entry.node.start = some first ∧
        session.store.place? entry.node.stop = some second ∧
        (session.store.sameDocument (session.store.position entry.node.start)
          (session.store.positionAt rope 0) = true → ∃ index, shape.Means first index) := by
  rcases fulfils.kept rule state entry holds with ⟨startBuffer, stopBuffer, first, second, front, back,
    index, index', startPlace, stopPlace, startSits, stopSits, _⟩
  refine ⟨startBuffer, stopBuffer, first, second, startPlace, stopPlace, fun same => ⟨index, ?_⟩⟩
  rcases fulfils.positionAt_start with ⟨origin, isOrigin, begins⟩
  rw [Store.position_of_place? startPlace, startBuffer, isOrigin] at same
  have roots := ((session.store.sameDocument_iff _ _).mp same).2
  have settled := startSits.current.sits startSits.settles
  have isRoot : front.root = shape.root :=
    settled.rootOf.symm.trans (roots.trans (fulfils.current.sits begins).rootOf)
  have isShape := startSits.current.shown.unique fulfils.current.shown isRoot
  exact isShape ▸ startSits.means

end Session

namespace Document

variable {document : Document V} {sameness : Sameness V} {id : BufferId} {shape : Shape}

/-- Dropping the nodes that pending edits have touched.  If there were edits, what is left starts
in the document, and they did not touch it. -/
theorem evictEdited_keeps (dormant : document.session.Dormant sameness id shape) (margin : Nat) :
    let after := document.evictEdited margin
    after.Dormant sameness id shape ∧ after.store = document.session.store ∧
      after.generation = document.session.generation ∧
      ∀ rule state entry, after.Keeps sameness rule state entry ↔
        document.session.Keeps sameness rule state entry ∧ (document.log.isEmpty = true ∨
          document.session.store.sameDocument (document.session.store.position entry.node.start)
              (document.session.store.positionAt document.rope 0) = true ∧
            document.log.overlaps (entry.node.range document.session.store) margin = false) := by
  rw [evictEdited]
  split
  · next noEdits =>
      exact ⟨dormant, rfl, rfl, fun rule state entry => (and_iff_left (Or.inl noEdits)).symm⟩
  · next edits =>
      refine ⟨(dormant.dropWhere _).of_eq rfl rfl, rfl, rfl, fun rule state entry => ?_⟩
      refine Iff.trans (Session.keeps_dropWhere _ sameness _ rule state entry)
        (and_congr_right fun _ => ?_)
      rw [Bool.or_eq_false_iff, Bool.not_eq_false', or_iff_right edits]
      rfl

end Document

/-! ## States that are not told apart -/

namespace Session

variable {session : Session V} {hash : Nat} {id : BufferId} {shape : Shape}

/-- What is known of all buckets between two parses, if each rule has one. -/
structure Idle (session : Session V) (hash : Nat) (id : BufferId) (shape : Shape) : Prop where
  names : (session.memos.map Prod.fst).Nodup
  single : ∀ rule memo, (rule, memo) ∈ session.memos → memo.Single hash
  buckets : ∀ rule memo bucket, (rule, memo) ∈ session.memos → memo.Contains bucket →
    bucket.Idle session.store id shape

theorem Caches.holds {rule : V.Rule} {entry : Entry V} (caches : session.Caches rule entry) :
    ∃ state, session.Holds rule state entry := by
  rcases caches with ⟨memo, member, bucket, contains, live⟩
  exact ⟨bucket.state, memo, member, bucket, contains, rfl, live⟩

theorem idle_iff_dormant : session.Idle hash id shape ↔ session.Dormant (.plain hash) id shape :=
  ⟨fun idle => ⟨idle.names, fun rule memo member =>
      Memo.single_iff_sorted.mp (idle.single rule memo member), idle.buckets⟩,
    fun dormant => ⟨dormant.names, fun rule memo member =>
      Memo.single_iff_sorted.mpr (dormant.sorted rule memo member), dormant.buckets⟩⟩

end Session

end Reparse
