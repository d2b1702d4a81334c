import Reparse.Proofs.Rope.Following
import Reparse.Proofs.Rope.Navigating
import Reparse.Proofs.Rope.Revisions

namespace Reparse

/-!
# What the revision guards

The revision of a buffer tells whether an anchor was moved by a cut.  A cursor that is
neither moved nor released sits at the place where it was for as long as the revision is
the same, whatever is done to ropes and to other cursors.

The position of a cursor is its settled place, and settling looks at the leaf that
follows.  To join two trees cuts no leaf, but it gives the last leaf of the first one a
neighbour.  So the revision guards the position of a cursor in front of a character of its
leaf.  The position of a cursor at the end of its leaf stays only if the same leaf follows,
or none as before.
-/

namespace Buffer

variable {buffer after : Buffer} {place : Place}

/-- Settling takes at most one step, since a leaf that follows another one has text. -/
theorem WellFormed.settle_eq (formed : buffer.WellFormed) (has : buffer.HasPlace place) :
    buffer.settle place =
      if place.offset < buffer.length place.leaf then place
      else match buffer.nextLeaf place.leaf with
        | some next => ⟨next, 0⟩
        | none => ⟨place.leaf, buffer.length place.leaf⟩ := by
  rcases has with ⟨text, found, _⟩
  rcases Nat.exists_eq_succ_of_ne_zero
    (Nat.ne_of_gt (Nat.zero_lt_of_lt (lt_nodeCount_of_view found))) with ⟨fuel, count⟩
  rw [settle, count, settleWithin]
  split
  · rfl
  · cases follows : buffer.nextLeaf place.leaf with
    | none => rfl
    | some next => simp only [settleWithin, if_pos (formed.length_nextLeafWithin_pos follows)]

/-- A leaf keeps its length. -/
theorem HasPlace.length_eq (has : buffer.HasPlace place) (grown : buffer.Extends after) :
    after.length place.leaf = buffer.length place.leaf := by
  rcases has with ⟨text, found, _⟩
  rw [length_eq_of_view found, length_eq_of_view (grown _ _ found)]

/-- A place settles where it did if it is at a character of its leaf, or if what follows the leaf
is the same. -/
theorem settle_eq_settle_iff (formed : buffer.WellFormed) (formed' : after.WellFormed)
    (grown : buffer.Extends after) (has : buffer.HasPlace place) :
    after.settle place = buffer.settle place ↔
      place.offset < buffer.length place.leaf ∨
        after.nextLeaf place.leaf = buffer.nextLeaf place.leaf := by
  rw [formed.settle_eq has, formed'.settle_eq (has.mono grown), has.length_eq grown]
  by_cases inside : place.offset < buffer.length place.leaf
  · rw [if_pos inside, if_pos inside]
    exact iff_of_true rfl (Or.inl inside)
  · rw [if_neg inside, if_neg inside, or_iff_right inside]
    -- The end of a leaf is not the start of one that follows, which has text.
    have apart : ∀ {buffer' : Buffer} {next : NodeId}, buffer'.WellFormed →
        buffer'.length place.leaf = buffer.length place.leaf →
        buffer'.nextLeaf place.leaf = some next →
        (⟨next, 0⟩ : Place) ≠ ⟨place.leaf, buffer.length place.leaf⟩ := by
      intro buffer' next formed' sameLength follows same
      injection same with sameLeaf isEmpty
      have someText := formed'.length_nextLeafWithin_pos follows
      rw [sameLeaf, sameLength, ← isEmpty] at someText
      exact Nat.lt_irrefl _ someText
    cases follows : buffer.nextLeaf place.leaf with
    | none =>
        cases follows' : after.nextLeaf place.leaf with
        | none => exact iff_of_true rfl rfl
        | some next =>
            exact iff_of_false (apart formed' (has.length_eq grown) follows') (Option.some_ne_none _)
    | some next =>
        cases follows' : after.nextLeaf place.leaf with
        | none =>
            exact iff_of_false (apart formed rfl follows).symm (Option.some_ne_none _).symm
        | some next' =>
            rw [Option.some.injEq]
            constructor
            · intro same
              exact congrArg Place.leaf same
            · rintro rfl
              rfl

end Buffer

namespace Store

/-- The revision grows, or a cursor sits where it did. -/
structure Guards (before after : Store) (cursor : Cursor) : Prop where
  le : (before.buffer cursor.buffer).revision ≤ (after.buffer cursor.buffer).revision
  still : (after.buffer cursor.buffer).revision = (before.buffer cursor.buffer).revision →
    after.place? cursor = before.place? cursor

variable {cursor : Cursor}

theorem Guards.refl (store : Store) (cursor : Cursor) : store.Guards store cursor :=
  ⟨Nat.le_refl _, fun _ => rfl⟩

theorem Guards.trans {first second third : Store} (one : first.Guards second cursor)
    (two : second.Guards third cursor) : first.Guards third cursor := by
  refine ⟨Nat.le_trans one.le two.le, fun same => ?_⟩
  have middle : (second.buffer cursor.buffer).revision = (first.buffer cursor.buffer).revision :=
    Nat.le_antisymm (same ▸ two.le) one.le
  rw [two.still (same.trans middle.symm), one.still middle]

/-- Cuts and joins guard every cursor. -/
theorem guards_of_advances {before after : Store}
    (advances : ∀ id, (before.buffer id).Advances (after.buffer id)) (cursor : Cursor) :
    before.Guards after cursor :=
  ⟨(advances cursor.buffer).le, fun same => (advances cursor.buffer).anchor? same cursor.anchor⟩

end Store

namespace Desk

variable {desk : Desk} {ledger : Ledger} {number : Nat} {cursor : Cursor}

/-! ## One command -/

/-- The second desk comes from the first by changes of ropes only.  In every buffer the revision grows,
or no anchor moves. -/
structure Rebuilt (desk next : Desk) : Prop where
  cursors : next.cursors = desk.cursors
  advances : ∀ id, (desk.store.buffer id).Advances (next.store.buffer id)

theorem Rebuilt.refl (desk : Desk) : desk.Rebuilt desk := ⟨rfl, fun _ => .refl _⟩

/-- A command that reaches the trees of some buffer changes ropes only. -/
theorem rebuilt_after {command : Command} {id : BufferId}
    (reaches : command.reaches desk id = true) : desk.Rebuilt (desk.after command) := by
  cases command with
  | concat first second =>
      refine concat_cases first second (.refl desk) fun left right _ _ _ => ⟨rfl, fun other => ?_⟩
      exact (desk.store.steps_concat left right other).advances
  | split number index =>
      refine split_cases number index (.refl desk) fun rope _ _ => ⟨rfl, fun other => ?_⟩
      exact (desk.store.steps_split rope index other).advances
  | replace number start stop replacement =>
      refine replace_cases number start stop replacement (.refl desk)
        fun rope insertion _ _ _ => ⟨rfl, fun other => ?_⟩
      exact (desk.store.steps_replace rope start stop insertion other).advances
  | _ => cases reaches

theorem sameRevisions_onCursor (desk : Desk) (number : Nat) {change : Cursor → Desk}
    (same : ∀ cursor, desk.store.SameRevisions (change cursor).store) :
    desk.store.SameRevisions (desk.onCursor number change).store :=
  onCursor_cases (motive := fun next => desk.store.SameRevisions next.store) number
    (fun _ => rfl) fun cursor _ => same cursor

/-- A number that stands for a rope of no buffer stands for no rope. -/
theorem noRope_of_quiet (quiet : ∀ id, ((desk.ropes[number]?).any (·.buffer == id)) = false) :
    desk.ropes[number]? = none := by
  cases found : desk.ropes[number]? with
  | none => rfl
  | some rope => exact absurd rfl (elsewhere_of_quiet (quiet rope.buffer) found)

/-- A command that reaches no trees keeps all revisions. -/
theorem sameRevisions_after {command : Command}
    (quiet : ∀ id, command.reaches desk id = false) :
    desk.store.SameRevisions (desk.after command).store := by
  cases command with
  | newBuffer => exact desk.store.sameRevisions_newBuffer
  | rope id text =>
      rw [after, perform]
      split
      · exact desk.store.sameRevisions_rope id text
      · exact fun _ => rfl
  | newRope text =>
      intro id
      exact (desk.store.newBuffer.2.sameRevisions_rope desk.store.newBuffer.1 text id).trans
        (desk.store.sameRevisions_newBuffer id)
  | concat first second =>
      rw [after, perform, noRope_of_quiet quiet]
      exact fun _ => rfl
  | split number index =>
      rw [after, perform, noRope_of_quiet quiet]
      exact fun _ => rfl
  | replace number start stop replacement =>
      rw [after, perform, noRope_of_quiet quiet]
      exact fun _ => rfl
  | cursor number index =>
      exact cursor_cases (motive := fun next => desk.store.SameRevisions next.store) number index
        (fun _ => rfl) fun rope _ _ => desk.store.sameRevisions_cursorAt _
  | copy number =>
      exact desk.sameRevisions_onCursor number fun cursor => Store.sameRevisions_cursorAt _ _
  | read number count =>
      exact desk.sameRevisions_onCursor number fun cursor => Store.sameRevisions_cursorAt _ _
  | back number count =>
      exact desk.sameRevisions_onCursor number fun cursor => Store.sameRevisions_cursorAt _ _
  | advance number count =>
      exact desk.sameRevisions_onCursor number fun cursor => Store.sameRevisions_seat _ _ _
  | advanceChar number =>
      refine desk.sameRevisions_onCursor number fun cursor => ?_
      simp only [Store.advanceChar]
      split
      · exact Store.sameRevisions_seat _ _ _
      · exact fun _ => rfl
  | retreat number count =>
      exact desk.sameRevisions_onCursor number fun cursor => Store.sameRevisions_seat _ _ _
  | release number =>
      exact desk.sameRevisions_onCursor number fun cursor => Store.sameRevisions_release _ _

/-- A command guards every cursor that it does not disturb. -/
theorem guards_after (agrees : desk.Agrees ledger) {command : Command}
    (quiet : command.disturbs (some number) = false) (held : desk.cursor? number = some cursor) :
    (desk.after command).cursor? number = some cursor ∧
      desk.store.Guards (desk.after command).store cursor := by
  by_cases reaches : ∃ id, command.reaches desk id = true
  · rcases reaches with ⟨id, reaches⟩
    rcases rebuilt_after reaches with ⟨cursors, advances⟩
    refine ⟨?_, Store.guards_of_advances advances cursor⟩
    rw [cursor?, cursors]
    exact held
  · have none : ∀ id, command.reaches desk id = false := by
      intro id
      apply Bool.eq_false_iff.mpr
      intro reached
      exact reaches ⟨id, reached⟩
    rcases (keeps_after agrees (none cursor.buffer)).cursor number cursor quiet held rfl with
      ⟨holds, place⟩
    have same := sameRevisions_after none cursor.buffer
    exact ⟨holds, Nat.le_of_eq same.symm, fun _ => place⟩

/-! ## Runs of commands -/

theorem guards_foldl (agrees : desk.Agrees ledger) {commands : List Command}
    (quiet : ∀ command ∈ commands, command.disturbs (some number) = false)
    (held : desk.cursor? number = some cursor) :
    (commands.foldl after desk).cursor? number = some cursor ∧
      desk.store.Guards (commands.foldl after desk).store cursor := by
  induction commands generalizing desk ledger with
  | nil => exact ⟨held, .refl _ _⟩
  | cons command rest inductionHypothesis =>
      rcases guards_after agrees (quiet command List.mem_cons_self) held with ⟨holds, first⟩
      have onward := (leads_after agrees command).agrees
      rcases inductionHypothesis onward
        (fun command member => quiet command (List.mem_cons_of_mem _ member)) holds with
        ⟨heldLast, second⟩
      exact ⟨heldLast, first.trans second⟩

/-- A cursor is followed through any commands that neither move nor release it.  The revision of its
buffer never falls.  If it is the same at the end then the cursor sits at the place where it sat,
and has the position that it had exactly if the place is at a character of its leaf, or the leaf
is followed by what it was followed by. -/
theorem revision_guards_places (commands more : List Command) (number : Nat) (cursor : Cursor)
    (held : (run commands).cursor? number = some cursor)
    (quiet : ∀ command ∈ more, command.disturbs (some number) = false) :
    let desk := run commands
    let later := run (commands ++ more)
    let before := desk.store.buffer cursor.buffer
    let after := later.store.buffer cursor.buffer
    later.cursor? number = some cursor ∧ before.revision ≤ after.revision ∧
      (after.revision = before.revision → ∃ place, desk.store.place? cursor = some place ∧
        later.store.place? cursor = some place ∧
        (later.store.position cursor = desk.store.position cursor ↔
          place.offset < before.length place.leaf ∨
            after.nextLeaf place.leaf = before.nextLeaf place.leaf)) := by
  intro desk later before after
  have agrees : desk.Agrees (Ledger.run commands) := run_agrees commands
  have onward : desk.Leads later (more.foldl Ledger.after (Ledger.run commands)) := by
    have leads := leads_foldl agrees more
    rwa [← show later = more.foldl Desk.after desk from List.foldl_append] at leads
  have guards := guards_foldl agrees quiet held
  rw [← show later = more.foldl Desk.after desk from List.foldl_append] at guards
  rcases guards with ⟨heldLater, le, still⟩
  refine ⟨heldLater, le, fun same => ?_⟩
  rcases Option.isSome_iff_exists.mp (agrees.live number cursor held) with ⟨place, sits⟩
  have sitsLater : later.store.place? cursor = some place := (still same).trans sits
  refine ⟨place, sits, sitsLater, ?_⟩
  rw [Store.position_of_place? sits, Store.position_of_place? sitsLater, Position.mk.injEq,
    eq_self, true_and]
  exact Buffer.settle_eq_settle_iff (agrees.sound cursor.buffer).formed
    (onward.agrees.sound cursor.buffer).formed (onward.grown cursor.buffer)
    (agrees.sound.hasPosition sits)

/-- To join two ropes cuts no leaf, and takes a cursor from the end of the first one to the start of
the second one. -/
example :
    let before := (run [.newBuffer, .rope 0 "ab", .cursor 0 2]).store
    let after := (run [.newBuffer, .rope 0 "ab", .cursor 0 2, .rope 0 "cd", .concat 0 1]).store
    (after.buffer 0).revision = (before.buffer 0).revision ∧
      before.position ⟨0, 0⟩ = ⟨0, ⟨0, 2⟩⟩ ∧ after.position ⟨0, 0⟩ = ⟨0, ⟨1, 0⟩⟩ := by
  decide +kernel

end Desk

end Reparse
