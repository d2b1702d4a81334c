import Mathlib.Data.List.Forall2
import Reparse.Proofs.Rope.Stores

/-!
# Ropes are persistent sequences

A desk is a store together with the ropes and the cursors that were made in it, in
the order in which they were made.  Commands name them by their places in that
order, so a run can use any rope again: one that was superseded, a part of another
one, the same rope twice, or one from another buffer.  A command that names
nothing leaves the desk as it is.

A ledger is what remains of a desk when every rope is replaced by its text, and
`Ledger.expect` says what a command means for texts alone.  Every run of commands
on a desk agrees with the run on the ledger, refusals included.  Every rope that
was ever made keeps its text, its length and its leaves.
-/

namespace Reparse

/-- An operation on ropes or cursors.  Ropes and cursors are named by their numbers. -/
inductive Command where
  | newBuffer
  | rope (buffer : BufferId) (text : String)
  | newRope (text : String)
  | concat (first second : Nat)
  | split (rope index : Nat)
  | replace (rope start stop replacement : Nat)
  | cursor (rope index : Nat)
  | copy (cursor : Nat)
  | read (cursor count : Nat)
  | back (cursor count : Nat)
  | advance (cursor count : Nat)
  | advanceChar (cursor : Nat)
  | retreat (cursor count : Nat)
  | release (cursor : Nat)
deriving DecidableEq, Repr

/-- A store with all ropes and cursors made in it.  A released cursor leaves a gap. -/
structure Desk where
  store : Store := {}
  ropes : List Rope := []
  cursors : List (Option Cursor) := []
deriving Repr

/-- The texts of all ropes, and the number of buffers. -/
structure Ledger where
  buffers : Nat := 0
  texts : List (List Char) := []
deriving DecidableEq, Repr

namespace Desk

/-- The cursor of a number, unless it was released. -/
def cursor? (desk : Desk) (number : Nat) : Option Cursor := desk.cursors[number]?.join

/-- The desk with another store and a new cursor. -/
def addCursor (desk : Desk) (made : Cursor × Store) : Desk :=
  { desk with store := made.2, cursors := desk.cursors ++ [some made.1] }

/-- Do something with a cursor that was not released. -/
def onCursor (desk : Desk) (number : Nat) (change : Cursor → Desk) : Desk :=
  match desk.cursor? number with
  | some cursor => change cursor
  | none => desk

/-- Carry out a command, or refuse it.  Either way the answer comes with the desk that the command
has led to. -/
def perform (desk : Desk) : Command → Except RangeError Unit × Desk
  | .newBuffer => (.ok (), { desk with store := desk.store.newBuffer.2 })
  | .rope id text =>
    if id < desk.store.buffers.size then
      let (rope, store) := desk.store.rope id text
      (.ok (), { desk with store, ropes := desk.ropes ++ [rope] })
    else (.ok (), desk)
  | .newRope text =>
    let (rope, store) := desk.store.newRope text
    (.ok (), { desk with store, ropes := desk.ropes ++ [rope] })
  | .concat first second =>
    match desk.ropes[first]?, desk.ropes[second]? with
    | some left, some right =>
      let (rope, store) := desk.store.concat left right
      (.ok (), { desk with store, ropes := desk.ropes ++ [rope] })
    | _, _ => (.ok (), desk)
  | .split rope index =>
    match desk.ropes[rope]? with
    | some whole =>
      match desk.store.split whole index with
      | (.ok (left, right), store) =>
        (.ok (), { desk with store, ropes := desk.ropes ++ [left, right] })
      | (.error error, store) => (.error error, { desk with store })
    | none => (.ok (), desk)
  | .replace rope start stop replacement =>
    match desk.ropes[rope]?, desk.ropes[replacement]? with
    | some whole, some insertion =>
      match desk.store.replace whole start stop insertion with
      | (.ok edit, store) =>
        (.ok (), { desk with store, ropes := desk.ropes ++ [edit.replaced, edit.removed] })
      | (.error error, store) => (.error error, { desk with store })
    | _, _ => (.ok (), desk)
  | .cursor rope index =>
    match desk.ropes[rope]? with
    | some whole =>
      match desk.store.cursor whole index with
      | (.ok cursor, store) => (.ok (), desk.addCursor (cursor, store))
      | (.error error, store) => (.error error, { desk with store })
    | none => (.ok (), desk)
  | .copy number =>
    (.ok (), desk.onCursor number fun cursor => desk.addCursor (desk.store.copy cursor))
  | .read number count => (.ok (), desk.onCursor number fun cursor =>
    let ((_, past), store) := desk.store.read cursor count
    desk.addCursor (past, store))
  | .back number count => (.ok (), desk.onCursor number fun cursor =>
    desk.addCursor (desk.store.back cursor count))
  | .advance number count => (.ok (), desk.onCursor number fun cursor =>
    { desk with store := (desk.store.advance cursor count).2 })
  | .advanceChar number => (.ok (), desk.onCursor number fun cursor =>
    { desk with store := (desk.store.advanceChar cursor).2 })
  | .retreat number count => (.ok (), desk.onCursor number fun cursor =>
    { desk with store := desk.store.retreat cursor count })
  | .release number => (.ok (), desk.onCursor number fun cursor =>
    { desk with store := desk.store.release cursor, cursors := desk.cursors.set number none })

/-- The desk that a command leads to, whether or not it is refused. -/
def after (desk : Desk) (command : Command) : Desk := (desk.perform command).2

/-- The desk after commands that start with nothing. -/
def run (commands : List Command) : Desk := commands.foldl after {}

end Desk

namespace Ledger

/-- What a command means for texts. -/
def expect (ledger : Ledger) : Command → Except RangeError Ledger
  | .newBuffer => .ok { ledger with buffers := ledger.buffers + 1 }
  | .rope id text =>
    if id < ledger.buffers then .ok { ledger with texts := ledger.texts ++ [text.toList] }
    else .ok ledger
  | .newRope text => .ok ⟨ledger.buffers + 1, ledger.texts ++ [text.toList]⟩
  | .concat first second =>
    match ledger.texts[first]?, ledger.texts[second]? with
    | some left, some right => .ok { ledger with texts := ledger.texts ++ [left ++ right] }
    | _, _ => .ok ledger
  | .split rope index =>
    match ledger.texts[rope]? with
    | some text =>
      if text.length < index then .error (.outOfBounds index text.length)
      else .ok { ledger with texts := ledger.texts ++ [text.take index, text.drop index] }
    | none => .ok ledger
  | .replace rope start stop replacement =>
    match ledger.texts[rope]?, ledger.texts[replacement]? with
    | some text, some insertion =>
      if stop < start then .error (.inverted start stop)
      else if text.length < stop then .error (.outOfBounds stop text.length)
      else .ok { ledger with texts := ledger.texts ++
        [text.take start ++ insertion ++ text.drop stop, (text.take stop).drop start] }
    | _, _ => .ok ledger
  | .cursor rope index =>
    match ledger.texts[rope]? with
    | some text =>
      if text.length < index then .error (.outOfBounds index text.length) else .ok ledger
    | none => .ok ledger
  | _ => .ok ledger

def after (ledger : Ledger) (command : Command) : Ledger :=
  (ledger.expect command).toOption.getD ledger

def run (commands : List Command) : Ledger := commands.foldl after {}

end Ledger

/-- A rope of a store has a text, and all ways to read it agree with it. -/
structure Store.Holds (store : Store) (rope : Rope) (chars : List Char) : Prop where
  text : store.text rope = String.ofList chars
  length : store.length rope = chars.length
  charAt : ∀ index, store.charAt rope index = chars[index]?
  leaves : (store.leaves rope).flatMap String.toList = chars

theorem Store.Shows.holds {store : Store} {rope : Rope} {shape : Shape}
    (shown : store.Shows rope shape) : store.Holds rope shape.text := by
  refine ⟨shown.text, shown.length, shown.charAt, ?_⟩
  rw [shown.leaves, List.flatMap_map]
  simp only [String.toList_ofList]
  exact shape.flatMap_chunks

/-- Two stores read the same of a rope. -/
structure Store.SameRope (before after : Store) (rope : Rope) : Prop where
  text : after.text rope = before.text rope
  length : after.length rope = before.length rope
  leaves : after.leaves rope = before.leaves rope

theorem Store.Shows.sameRope {before after : Store} {rope : Rope} {shape : Shape}
    (shown : before.Shows rope shape) (grown : before.Extends after) :
    before.SameRope after rope := by
  have later := shown.mono grown
  constructor
  · rw [later.text, shown.text]
  · rw [later.length, shown.length]
  · rw [later.leaves, shown.leaves]

namespace Desk

/-! ## The invariant of a desk -/

/-- Every rope is a node of its buffer and has the text of the ledger, and live cursors
have anchors of their own. -/
structure Agrees (desk : Desk) (ledger : Ledger) : Prop where
  sound : desk.store.Sound
  buffers : desk.store.buffers.size = ledger.buffers
  rooted : ∀ rope ∈ desk.ropes, ∃ shape, desk.store.Shows rope shape
  texts : ledger.texts = desk.ropes.map fun rope => (desk.store.text rope).toList
  live : ∀ number cursor, desk.cursor? number = some cursor → (desk.store.place? cursor).isSome
  apart : ∀ one two cursor, desk.cursor? one = some cursor → desk.cursor? two = some cursor →
    one = two

/-- What a command does to a desk that is not refused. -/
structure Leads (desk next : Desk) (ledger : Ledger) : Prop where
  agrees : next.Agrees ledger
  grown : desk.store.Extends next.store
  made : desk.ropes <+: next.ropes

variable {desk : Desk} {ledger : Ledger}

theorem Agrees.empty : Agrees {} {} := by
  refine ⟨Store.Sound.empty, rfl, ?_, rfl, ?_, ?_⟩
  · intro rope member
    cases member
  · intro number cursor found
    cases found
  · intro one two cursor found
    cases found

theorem Agrees.stays (agrees : desk.Agrees ledger) : desk.Leads desk ledger :=
  ⟨agrees, Store.Extends.refl _, List.prefix_rfl⟩

/-- The ropes that a desk has keep their texts in a store that extends its own. -/
theorem Agrees.texts_of_extends (agrees : desk.Agrees ledger) {store : Store}
    (grown : desk.store.Extends store) :
    ledger.texts = desk.ropes.map fun rope => (store.text rope).toList := by
  rw [agrees.texts]
  refine List.map_congr_left fun rope member => ?_
  rcases agrees.rooted rope member with ⟨shape, shown⟩
  rw [(shown.sameRope grown).text]

/-- The rope of a number has a shape, whose text is in the ledger. -/
theorem Agrees.rope (agrees : desk.Agrees ledger) {number : Nat} {rope : Rope}
    (found : desk.ropes[number]? = some rope) :
    ∃ shape, desk.store.Shows rope shape ∧ ledger.texts[number]? = some shape.text := by
  rcases agrees.rooted rope (List.mem_of_getElem? found) with ⟨shape, shown⟩
  refine ⟨shape, shown, ?_⟩
  rw [agrees.texts, List.getElem?_map, found, Option.map_some, shown.text, String.toList_ofList]

theorem Agrees.noRope (agrees : desk.Agrees ledger) {number : Nat}
    (missing : desk.ropes[number]? = none) : ledger.texts[number]? = none := by
  rw [agrees.texts, List.getElem?_map, missing, Option.map_none]

/-- New ropes are entered where the buffers have evolved. -/
theorem Agrees.addRopes (agrees : desk.Agrees ledger) {store : Store}
    (evolves : desk.store.Evolves store) {count : Nat} (size : store.buffers.size = count)
    (made : List (Rope × Shape)) (shown : ∀ pair ∈ made, store.Shows pair.1 pair.2) :
    desk.Leads { desk with store, ropes := desk.ropes ++ made.map Prod.fst }
      ⟨count, ledger.texts ++ made.map fun pair => pair.2.text⟩ := by
  refine ⟨⟨evolves.sound, size, ?_, ?_, ?_, agrees.apart⟩, evolves.extends_, List.prefix_append _ _⟩
  · intro rope member
    rcases List.mem_append.mp member with old | new
    · rcases agrees.rooted rope old with ⟨shape, before⟩
      exact ⟨shape, before.mono evolves.extends_⟩
    · rcases List.mem_map.mp new with ⟨pair, inMade, rfl⟩
      exact ⟨pair.2, shown pair inMade⟩
  · rw [agrees.texts_of_extends evolves.extends_, List.map_append, List.map_map]
    refine congrArg _ (List.map_congr_left fun pair member => ?_)
    rw [Function.comp_apply, (shown pair member).text, String.toList_ofList]
  · intro number cursor found
    rw [Store.place?, (evolves cursor.buffer).kept]
    exact agrees.live number cursor found

/-- Buffers may evolve without a new rope. -/
theorem Agrees.evolve (agrees : desk.Agrees ledger) {store : Store}
    (evolves : desk.store.Evolves store) {count : Nat} (size : store.buffers.size = count) :
    desk.Leads { desk with store } ⟨count, ledger.texts⟩ := by
  have leads := agrees.addRopes evolves size [] fun pair member => absurd member List.not_mem_nil
  rwa [List.map_nil, List.map_nil, List.append_nil, List.append_nil] at leads

/-- Operations on cursors leave ropes alone. -/
theorem Agrees.reseat (agrees : desk.Agrees ledger) {store : Store}
    {cursors : List (Option Cursor)} (sound : store.Sound) (trees : desk.store.SameTrees store)
    (size : store.buffers.size = desk.store.buffers.size)
    (live : ∀ number cursor, ({ desk with store, cursors } : Desk).cursor? number = some cursor →
      (store.place? cursor).isSome)
    (apart : ∀ one two cursor, ({ desk with store, cursors } : Desk).cursor? one = some cursor →
      ({ desk with store, cursors } : Desk).cursor? two = some cursor → one = two) :
    desk.Leads { desk with store, cursors } ledger := by
  refine ⟨⟨sound, size.trans agrees.buffers, ?_, agrees.texts_of_extends trees.extends_, live, apart⟩,
    trees.extends_, List.prefix_rfl⟩
  intro rope member
  rcases agrees.rooted rope member with ⟨shape, shown⟩
  exact ⟨shape, shown.mono trees.extends_⟩

theorem lt_length_of_cursor? {number : Nat} {cursor : Cursor}
    (found : desk.cursor? number = some cursor) : number < desk.cursors.length := by
  rcases Nat.lt_or_ge number desk.cursors.length with within | beyond
  · exact within
  · rw [cursor?, List.getElem?_eq_none beyond] at found
    cases found

/-- A new cursor has the number that follows those of all others. -/
theorem cursor?_addCursor (desk : Desk) (made : Cursor × Store) (number : Nat) :
    (desk.addCursor made).cursor? number =
      if number = desk.cursors.length then some made.1 else desk.cursor? number := by
  simp only [cursor?, Desk.addCursor, List.getElem?_append, List.getElem?_singleton]
  grind

/-- A released cursor leaves a gap. -/
theorem cursor?_set (desk : Desk) (store : Store) (number other : Nat) :
    ({ desk with store, cursors := desk.cursors.set number none } : Desk).cursor? other =
      if other = number then none else desk.cursor? other := by
  simp only [cursor?, List.getElem?_set]
  grind

/-- A new cursor has an anchor that no other cursor has. -/
theorem Agrees.addCursor (agrees : desk.Agrees ledger) {position : Position}
    (has : desk.store.HasPosition position) :
    desk.Leads (desk.addCursor (desk.store.cursorAt position)) ledger := by
  rcases Store.cursorAt_spec agrees.sound has with ⟨vacant, _, reseats⟩
  have size : (desk.store.cursorAt position).2.buffers.size = desk.store.buffers.size := by
    simp only [Store.cursorAt, Store.size_update]
  generalize desk.store.cursorAt position = made at vacant reseats size ⊢
  have found : ∀ number cursor, (desk.addCursor made).cursor? number = some cursor →
      desk.cursor? number = some cursor ∨ number = desk.cursors.length ∧ cursor = made.1 := by
    intro number cursor
    rw [cursor?_addCursor]
    split
    · next last => exact fun new => Or.inr ⟨last, (Option.some_inj.mp new).symm⟩
    · exact Or.inl
  have isNew : ∀ number, desk.cursor? number ≠ some made.1 := by
    intro number old
    have inUse := agrees.live number made.1 old
    rw [vacant] at inUse
    cases inUse
  refine agrees.reseat reseats.sound reseats.trees size ?_ ?_
  · intro number cursor member
    rw [reseats.place]
    rcases found number cursor member with old | ⟨_, new⟩
    · split
      · rfl
      · exact agrees.live number cursor old
    · rw [if_pos new, Option.isSome_some]
  · intro one two cursor first second
    rcases found one cursor first with old | ⟨last, new⟩
    · rcases found two cursor second with old' | ⟨_, new'⟩
      · exact agrees.apart one two cursor old old'
      · exact absurd (new' ▸ old) (isNew one)
    · rcases found two cursor second with old' | ⟨last', _⟩
      · exact absurd (new ▸ old') (isNew two)
      · exact last.trans last'.symm

theorem Agrees.seat (agrees : desk.Agrees ledger) {number : Nat} {cursor : Cursor}
    (found : desk.cursor? number = some cursor) {place : Place}
    (has : desk.store.HasPosition ⟨cursor.buffer, place⟩) :
    desk.Leads { desk with store := desk.store.seat cursor place } ledger := by
  rcases Option.isSome_iff_exists.mp (agrees.live number cursor found) with ⟨old, sits⟩
  have reseats := Store.seat_spec agrees.sound sits has
  refine agrees.reseat reseats.sound reseats.trees (Store.size_update _ _ _) ?_ agrees.apart
  intro other another member
  rw [reseats.place]
  split
  · rfl
  · exact agrees.live other another member

theorem Agrees.release (agrees : desk.Agrees ledger) {number : Nat} {cursor : Cursor}
    (found : desk.cursor? number = some cursor) :
    desk.Leads { desk with
      store := desk.store.release cursor, cursors := desk.cursors.set number none } ledger := by
  have reseats := Store.release_spec agrees.sound cursor
  have remains : ∀ other another, ({ desk with
      store := desk.store.release cursor, cursors := desk.cursors.set number none } : Desk).cursor?
        other = some another → other ≠ number ∧ desk.cursor? other = some another := by
    intro other another
    rw [cursor?_set]
    split
    · rintro ⟨⟩
    · next different => exact fun held => ⟨different, held⟩
  refine agrees.reseat reseats.sound reseats.trees (Store.size_update _ _ _) ?_ ?_
  · intro other another member
    rcases remains other another member with ⟨different, old⟩
    rw [reseats.place, if_neg]
    · exact agrees.live other another old
    · rintro rfl
      exact different (agrees.apart other number _ old found)
  · intro one two another first second
    exact agrees.apart one two another (remains one another first).2 (remains two another second).2

/-! ## One command -/

/-- What holds of a desk, and of the desk that each live cursor leads to, holds afterwards. -/
theorem onCursor_cases {motive : Desk → Prop} (number : Nat) {change : Cursor → Desk}
    (stays : motive desk)
    (changes : ∀ cursor, desk.cursor? number = some cursor → motive (change cursor)) :
    motive (desk.onCursor number change) := by
  rw [onCursor]
  split
  · next cursor found => exact changes cursor found
  · exact stays

/-! A command that names no rope changes nothing.  Answered or refused, one that names ropes leaves the
store that its operation has come to, and an operation on ropes changes no cursor. -/

theorem concat_cases {motive : Desk → Prop} (first second : Nat) (stays : motive desk)
    (changes : ∀ left right ropes, desk.ropes[first]? = some left →
      desk.ropes[second]? = some right →
      motive { desk with store := (desk.store.concat left right).2, ropes }) :
    motive (desk.after (.concat first second)) := by
  rw [after, perform]
  split
  · next left right found foundOther => exact changes left right _ found foundOther
  · exact stays

theorem split_cases {motive : Desk → Prop} (number index : Nat) (stays : motive desk)
    (changes : ∀ rope ropes, desk.ropes[number]? = some rope →
      motive { desk with store := (desk.store.split rope index).2, ropes }) :
    motive (desk.after (.split number index)) := by
  rw [after, perform]
  split
  · next rope found =>
      have leads := fun ropes => changes rope ropes found
      generalize desk.store.split rope index = done at leads ⊢
      rcases done with ⟨error | halves, store⟩
      · exact leads desk.ropes
      · exact leads _
  · exact stays

theorem replace_cases {motive : Desk → Prop} (number start stop replacement : Nat)
    (stays : motive desk)
    (changes : ∀ rope insertion ropes, desk.ropes[number]? = some rope →
      desk.ropes[replacement]? = some insertion →
      motive { desk with store := (desk.store.replace rope start stop insertion).2, ropes }) :
    motive (desk.after (.replace number start stop replacement)) := by
  rw [after, perform]
  split
  · next rope insertion found foundOther =>
      have leads := fun ropes => changes rope insertion ropes found foundOther
      generalize desk.store.replace rope start stop insertion = done at leads ⊢
      rcases done with ⟨error | edit, store⟩
      · exact leads desk.ropes
      · exact leads _
  · exact stays

theorem cursor_cases {motive : Desk → Prop} (number index : Nat) (stays : motive desk)
    (changes : ∀ rope, desk.ropes[number]? = some rope → index ≤ desk.store.length rope →
      motive (desk.addCursor (desk.store.cursorAt (desk.store.positionAt rope index)))) :
    motive (desk.after (.cursor number index)) := by
  rw [after, perform]
  split
  · next rope found =>
      rw [Store.cursor_eq]
      by_cases beyond : desk.store.length rope < index
      · rw [if_pos beyond]
        exact stays
      · rw [if_neg beyond]
        exact changes rope found (Nat.le_of_not_lt beyond)
  · exact stays

/-- A command on a cursor has no meaning for texts, and is never refused. -/
theorem Agrees.onCursor (agrees : desk.Agrees ledger) (number : Nat) {change : Cursor → Desk}
    (leads : ∀ cursor, desk.cursor? number = some cursor → desk.Leads (change cursor) ledger) :
    desk.Leads (desk.onCursor number change) ledger :=
  onCursor_cases (motive := fun next => desk.Leads next ledger) number agrees.stays leads

/-- The position of a live cursor is one that the store has. -/
theorem Agrees.hasPosition (agrees : desk.Agrees ledger) {number : Nat} {cursor : Cursor}
    (found : desk.cursor? number = some cursor) :
    desk.store.HasPosition (desk.store.position cursor) := by
  rcases Option.isSome_iff_exists.mp (agrees.live number cursor found) with ⟨place, sits⟩
  exact agrees.sound.hasPosition_position sits

/-- Both a desk and its ledger answer a command, or both refuse it for one reason, and then the
desk is the one that it was. -/
inductive Answers (desk : Desk) :
    Except RangeError Unit × Desk → Except RangeError Ledger → Prop where
  | answered {next : Desk} {expected : Ledger} (leads : desk.Leads next expected) :
    Answers desk (.ok (), next) (.ok expected)
  | refused (error : RangeError) : Answers desk (.error error, desk) (.error error)

theorem perform_concat (agrees : desk.Agrees ledger) (first second : Nat) :
    desk.Answers (desk.perform (.concat first second)) (ledger.expect (.concat first second)) := by
  rw [perform, Ledger.expect]
  cases foundFirst : desk.ropes[first]? with
  | none =>
      rw [agrees.noRope foundFirst]
      exact .answered agrees.stays
  | some left =>
      rcases agrees.rope foundFirst with ⟨leftShape, leftShown, leftText⟩
      cases foundSecond : desk.ropes[second]? with
      | none =>
          rw [leftText, agrees.noRope foundSecond]
          exact .answered agrees.stays
      | some right =>
          rcases agrees.rope foundSecond with ⟨rightShape, rightShown, rightText⟩
          rcases Store.concat_spec agrees.sound leftShown rightShown with
            ⟨whole, shown, text, evolves⟩
          have size : (desk.store.concat left right).2.buffers.size = ledger.buffers := by
            simp only [Store.concat, Store.size_update, agrees.buffers]
          rw [leftText, rightText]
          simp only
          rw [← text]
          refine .answered (agrees.addRopes evolves size [((desk.store.concat left right).1, whole)] ?_)
          intro pair member
          rw [List.mem_singleton.mp member]
          exact shown

theorem perform_split (agrees : desk.Agrees ledger) (rope index : Nat) :
    desk.Answers (desk.perform (.split rope index)) (ledger.expect (.split rope index)) := by
  rw [perform, Ledger.expect]
  cases found : desk.ropes[rope]? with
  | none =>
      rw [agrees.noRope found]
      exact .answered agrees.stays
  | some whole =>
      rcases agrees.rope found with ⟨shape, shown, text⟩
      rw [text]
      simp only
      by_cases beyond : shape.text.length < index
      · rw [if_pos beyond, Store.split_error shown beyond]
        exact .refused _
      · rcases Store.split_spec agrees.sound shown (Nat.le_of_not_lt beyond) with
          ⟨left, right, store, first, rest, done, size, evolves, leftShown, rightShown, firstText,
            restText⟩
        rw [if_neg beyond, done, ← firstText, ← restText]
        refine .answered (agrees.addRopes evolves (size.trans agrees.buffers)
          [(left, first), (right, rest)] ?_)
        intro pair member
        rcases List.mem_pair.mp member with rfl | rfl
        · exact leftShown
        · exact rightShown

theorem perform_replace (agrees : desk.Agrees ledger) (rope start stop replacement : Nat) :
    desk.Answers (desk.perform (.replace rope start stop replacement))
      (ledger.expect (.replace rope start stop replacement)) := by
  rw [perform, Ledger.expect]
  cases found : desk.ropes[rope]? with
  | none =>
      rw [agrees.noRope found]
      exact .answered agrees.stays
  | some whole =>
      rcases agrees.rope found with ⟨shape, shown, text⟩
      cases foundOther : desk.ropes[replacement]? with
      | none =>
          rw [text, agrees.noRope foundOther]
          exact .answered agrees.stays
      | some insertion =>
          rcases agrees.rope foundOther with ⟨otherShape, otherShown, otherText⟩
          rw [text, otherText]
          simp only
          by_cases inverted : stop < start
          · rw [if_pos inverted, Store.replace_inverted inverted]
            exact .refused _
          · have ordered := Nat.le_of_not_lt inverted
            rw [if_neg inverted]
            by_cases beyond : shape.text.length < stop
            · rw [if_pos beyond, Store.replace_outOfBounds shown ordered beyond]
              exact .refused _
            · rcases Store.replace_spec agrees.sound shown otherShown ordered
                  (Nat.le_of_not_lt beyond) with
                ⟨edit, store, result, cut, done, size, evolves, resultShown, cutShown, resultText,
                  cutText⟩
              rw [if_neg beyond, done, ← resultText, ← cutText]
              refine .answered (agrees.addRopes evolves (size.trans agrees.buffers)
                [(edit.replaced, result), (edit.removed, cut)] ?_)
              intro pair member
              rcases List.mem_pair.mp member with rfl | rfl
              · exact resultShown
              · exact cutShown

theorem perform_cursor (agrees : desk.Agrees ledger) (rope index : Nat) :
    desk.Answers (desk.perform (.cursor rope index)) (ledger.expect (.cursor rope index)) := by
  rw [perform, Ledger.expect]
  cases found : desk.ropes[rope]? with
  | none =>
      rw [agrees.noRope found]
      exact .answered agrees.stays
  | some whole =>
      rcases agrees.rope found with ⟨shape, shown, text⟩
      rw [text]
      simp only [Store.cursor_eq, shown.length]
      by_cases beyond : shape.text.length < index
      · rw [if_pos beyond, if_pos beyond]
        exact .refused _
      · rw [if_neg beyond, if_neg beyond]
        exact .answered (agrees.addCursor
          (agrees.sound.hasPosition_positionAt shown (Nat.le_of_not_lt beyond)))

theorem perform_spec (agrees : desk.Agrees ledger) (command : Command) :
    desk.Answers (desk.perform command) (ledger.expect command) := by
  cases command with
  | newBuffer =>
      have size : desk.store.newBuffer.2.buffers.size = ledger.buffers + 1 := by
        rw [← agrees.buffers]
        exact Array.size_push _
      exact .answered (agrees.evolve (Store.evolves_newBuffer agrees.sound) size)
  | rope id text =>
      rw [perform, Ledger.expect, agrees.buffers]
      split
      · next within =>
          rcases Store.rope_spec agrees.sound (agrees.buffers ▸ within) text with
            ⟨shape, shown, same, evolves⟩
          rw [← same]
          refine .answered (agrees.addRopes evolves ?_ [((desk.store.rope id text).1, shape)] ?_)
          · simp only [Store.rope, Store.size_update, agrees.buffers]
          · intro pair member
            rw [List.mem_singleton.mp member]
            exact shown
      · exact .answered agrees.stays
  | newRope text =>
      rcases Store.newRope_spec agrees.sound text with ⟨shape, shown, same, evolves⟩
      rw [perform, Ledger.expect, ← same]
      refine .answered (agrees.addRopes evolves ?_ [((desk.store.newRope text).1, shape)] ?_)
      · simp only [Store.newRope, Store.rope, Store.size_update, Store.newBuffer, Array.size_push,
          agrees.buffers]
      · intro pair member
        rw [List.mem_singleton.mp member]
        exact shown
  | concat first second => exact perform_concat agrees first second
  | split rope index => exact perform_split agrees rope index
  | replace rope start stop replacement => exact perform_replace agrees rope start stop replacement
  | cursor rope index => exact perform_cursor agrees rope index
  | copy number =>
      refine .answered (agrees.onCursor number fun cursor found => ?_)
      exact agrees.addCursor (agrees.hasPosition found)
  | read number count =>
      refine .answered (agrees.onCursor number fun cursor found => ?_)
      exact agrees.addCursor (agrees.sound.hasPosition_readFrom (agrees.hasPosition found) count)
  | back number count =>
      refine .answered (agrees.onCursor number fun cursor found => ?_)
      exact agrees.addCursor (agrees.sound.hasPosition_backFrom (agrees.hasPosition found) count)
  | advance number count =>
      refine .answered (agrees.onCursor number fun cursor found => ?_)
      exact agrees.seat found (agrees.sound.hasPosition_readFrom (agrees.hasPosition found) count)
  | advanceChar number =>
      refine .answered (agrees.onCursor number fun cursor found => ?_)
      simp only [Store.advanceChar]
      split
      · exact agrees.seat found (agrees.sound.hasPosition_readFrom (agrees.hasPosition found) 1)
      · exact agrees.stays
  | retreat number count =>
      refine .answered (agrees.onCursor number fun cursor found => ?_)
      exact agrees.seat found (agrees.sound.hasPosition_backFrom (agrees.hasPosition found) count)
  | release number =>
      exact .answered (agrees.onCursor number fun cursor found => agrees.release found)

/-! ## Runs of commands -/

theorem Leads.trans {first second third : Desk} {ledger ledger' : Ledger}
    (one : first.Leads second ledger) (two : second.Leads third ledger') :
    first.Leads third ledger' :=
  ⟨two.agrees, one.grown.trans two.grown, one.made.trans two.made⟩

theorem leads_after (agrees : desk.Agrees ledger) (command : Command) :
    desk.Leads (desk.after command) (ledger.after command) := by
  rw [after, Ledger.after]
  have answers := perform_spec agrees command
  generalize desk.perform command = result, ledger.expect command = expected at answers
  cases answers with
  | answered leads => exact leads
  | refused error => exact agrees.stays

theorem leads_foldl (agrees : desk.Agrees ledger) (commands : List Command) :
    desk.Leads (commands.foldl after desk) (commands.foldl Ledger.after ledger) := by
  induction commands generalizing desk ledger with
  | nil => exact agrees.stays
  | cons command rest inductionHypothesis =>
      have first := leads_after agrees command
      exact first.trans (inductionHypothesis first.agrees)

theorem run_agrees (commands : List Command) : (run commands).Agrees (Ledger.run commands) :=
  (leads_foldl Agrees.empty commands).agrees

/-- Every rope of a desk that agrees reads as its text in the ledger. -/
theorem Agrees.holds (agrees : desk.Agrees ledger) :
    List.Forall₂ desk.store.Holds desk.ropes ledger.texts := by
  rw [agrees.texts, List.forall₂_map_right_iff, List.forall₂_same]
  intro rope member
  rcases agrees.rooted rope member with ⟨shape, shown⟩
  rw [shown.text, String.toList_ofList]
  exact shown.holds

end Desk

end Reparse
