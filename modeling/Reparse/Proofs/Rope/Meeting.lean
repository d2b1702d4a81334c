import Reparse.Proofs.Rope.Following

/-!
# Cursors that meet

Two cursors are equal when their positions are.  Two that were made in front of
characters of a document meet only at one character, or at one that was cut out, and
their fates are the same from then on.  So they stay together through every further
history of the document, wherever it is edited.

This is not so of a cursor made at the end of the document.  It stays past the last
character of that time.  When text is put behind it, it is at the first character of
that text, and equal to a cursor made there.  Text put between the two later parts
them.
-/

namespace Reparse

/-- The event moves or releases the cursor of the number. -/
def Event.disturbs (number : Nat) : Event → Bool
  | .command given => given.disturbs (some number)
  | _ => false

namespace Scene

/-- Where a character with a fate is. -/
def whereabouts (scene : Scene) : Fate → Position
  | .kept index => scene.desk.store.positionAt scene.document index
  | .removed rope index => scene.desk.store.positionAt rope index

variable {scene : Scene} {shape : Shape}

/-- A history that leaves a cursor alone is the same whether the cursor is followed or not. -/
theorem run_of_undisturbed {number : Nat} {events : List Event}
    (quiet : ∀ event ∈ events, event.disturbs number = false) :
    scene.run (some number) events = scene.run none events := by
  induction events generalizing scene with
  | nil => rfl
  | cons event rest inductionHypothesis =>
      have first : scene.after (some number) event = scene.after none event := by
        have still := quiet event List.mem_cons_self
        cases event with
        | edit start stop insertion => rfl
        | paste start stop rope => rfl
        | command command =>
            have nothing : command.disturbs none = false := by cases command <;> rfl
            simp only [Event.disturbs] at still
            simp only [after, still, nothing]
      rw [run, List.foldl_cons, ← run, first,
        inductionHypothesis fun other member => quiet other (List.mem_cons_of_mem _ member)]
      rfl

/-- A scene has one shape. -/
theorem Holds.unique {other : Shape} (holds : scene.Holds shape) (holds' : scene.Holds other) :
    other = shape :=
  holds'.current.shown.unique holds.current.shown (holds'.root.trans holds.root.symm)

/-- What cursors follow depends on the desk and the document only. -/
theorem Follows.of_desk {next : Scene} {number : Nat} {cursor : Cursor} {char : Char} {fate : Fate}
    (follows : scene.Follows shape number cursor char fate) (desk : next.desk = scene.desk)
    (document : next.document = scene.document) : next.Follows shape number cursor char fate := by
  have stays : ∀ host index, scene.Stays cursor host index char → next.Stays cursor host index char := by
    intro host index stay
    refine ⟨?_, ?_, ?_, stay.char⟩
    · rw [document]
      exact stay.buffer
    · rw [desk, document]
      exact stay.current
    · rw [desk]
      exact stay.seat
  have held : next.desk.cursor? number = some cursor := desk ▸ follows.1
  cases fate with
  | kept index => exact ⟨held, stays shape index follows.2⟩
  | removed rope index =>
      rcases follows.2 with ⟨host, isHost, different, stay⟩
      exact ⟨held, host, document ▸ isHost, different, stays host index stay⟩

/-- A cursor that is followed stays where it is when another one is made. -/
theorem Holds.follows_mark (holds : scene.Holds shape) {index : Nat} {made : Cursor}
    {marked : Scene} (marks : scene.mark index = (.ok made, marked)) {number : Nat}
    {cursor : Cursor} {char : Char} {fate : Fate}
    (follows : scene.Follows shape number cursor char fate) :
    marked.Follows shape number cursor char fate := by
  rcases holds.agrees with ⟨ledger, agrees⟩
  have isMarked : index ≤ shape.text.length ∧ marked =
      ⟨scene.desk.addCursor (scene.desk.store.cursorAt
        (scene.desk.store.positionAt scene.document index)), scene.document, []⟩ := by
    simp only [Scene.mark, Store.cursor_eq, holds.shows.length] at marks
    by_cases beyond : shape.text.length < index
    · rw [if_pos beyond] at marks
      cases marks
    · rw [if_neg beyond] at marks
      cases marks
      exact ⟨Nat.le_of_not_lt beyond, rfl⟩
  rcases isMarked with ⟨within, rfl⟩
  have keeps : scene.desk.Keeps _ scene.document.buffer fun _ => false :=
    Desk.keeps_addCursor agrees (agrees.sound.hasPosition_positionAt holds.shows within)
  have led : scene.Leads _ shape (some number) [] := holds.leads_of_keeps
    ⟨ledger, (agrees.addCursor (agrees.sound.hasPosition_positionAt holds.shows within)).agrees⟩
    keeps fun _ _ => rfl
  rcases led with ⟨⟨other, otherHolds, carries⟩, _⟩
  have isShape : other = shape := otherHolds.current.shown.unique
    (keeps.current shape holds.current).shown (otherHolds.root.trans holds.root.symm)
  rw [isShape] at carries
  exact (carries number cursor char fate rfl follows).of_desk rfl rfl

/-- Cursors stay followed through a history that disturbs neither. -/
theorem Holds.follows_run (holds : scene.Holds shape) (events : List Event) :
    ∃ (shape' : Shape) (changes : List Change), (scene.run none events).Holds shape' ∧
      ∀ number cursor char fate, (∀ event ∈ events, event.disturbs number = false) →
        scene.Follows shape number cursor char fate →
        (scene.run none events).Follows shape' number cursor char
          (changes.foldl Fate.after fate) := by
  rcases holds.leads_run none events with ⟨changes, ⟨shape', holds', _⟩, made⟩
  refine ⟨shape', changes, holds', ?_⟩
  intro number cursor char fate quiet follows
  rcases holds.leads_run (some number) events with ⟨others, ⟨other, otherHolds, carries⟩, made'⟩
  rw [run_of_undisturbed quiet] at otherHolds carries made'
  have sameChanges : others = changes := List.append_cancel_left (made'.symm.trans made)
  rw [holds'.unique otherHolds, sameChanges] at carries
  exact carries number cursor char fate rfl follows

/-! ## Fates and positions -/

section Positions

variable {number number' : Nat} {cursor cursor' : Cursor} {char char' : Char} {fate fate' : Fate}

/-- The fate of a cursor tells where it is. -/
theorem Follows.position (follows : scene.Follows shape number cursor char fate)
    (holds : scene.Holds shape) :
    scene.desk.store.position cursor = scene.whereabouts fate := by
  cases fate with
  | kept index =>
      have atIndex := follows.2.answers.1
      rw [holds.root] at atIndex
      exact atIndex
  | removed rope index =>
      rcases follows.2 with ⟨host, rfl, _, stay⟩
      exact stay.answers.1

/-- Two cursors at one position have one fate. -/
theorem Follows.fate_eq (follows : scene.Follows shape number cursor char fate)
    (follows' : scene.Follows shape number' cursor' char' fate')
    (meet : scene.desk.store.position cursor = scene.desk.store.position cursor') :
    fate = fate' := by
  -- The position tells the index and the root of the tree, and these tell the fate.
  have sameIndex : scene.desk.store.index cursor = scene.desk.store.index cursor' :=
    congrArg scene.desk.store.indexOf meet
  cases fate with
  | kept index =>
      rcases follows.2.answers with ⟨_, atIndex, _, inShape⟩
      cases fate' with
      | kept index' =>
          rcases follows'.2.answers with ⟨_, atIndex', _, _⟩
          rw [← atIndex, ← atIndex', sameIndex]
      | removed rope' index' =>
          rcases follows'.2 with ⟨host', _, different, stay'⟩
          rcases stay'.answers with ⟨_, _, _, inHost'⟩
          exact absurd (inHost'.symm.trans (meet ▸ inShape)) different
  | removed rope index =>
      rcases follows.2 with ⟨host, rfl, different, stay⟩
      rcases stay.answers with ⟨_, atIndex, _, inHost⟩
      cases fate' with
      | kept index' =>
          rcases follows'.2.answers with ⟨_, _, _, inShape'⟩
          exact absurd (inHost.symm.trans (meet ▸ inShape')) different
      | removed rope' index' =>
          rcases follows'.2 with ⟨host', rfl, _, stay'⟩
          rcases stay'.answers with ⟨_, atIndex', _, inHost'⟩
          have sameRoot : host.root = host'.root := inHost.symm.trans (meet ▸ inHost')
          rw [sameRoot, ← atIndex, ← atIndex', sameIndex]

end Positions

/-- Take a document after any history, a cursor made in front of one of its characters, a
further history, and another cursor made in front of a character.  If they are at one
position at some later time, they are at one position ever after, so that they are equal
and have the same key and the same index.  This holds also when their character has been
cut out. -/
theorem cursors_that_meet_stay_together (before : List Command) (id : BufferId) (text : String)
    (within : id < (Desk.run before).store.buffers.size) (early : List Event) (index : Nat)
    (char : Char) (found : ((start (Desk.run before) id text).run none early).text.toList[index]? =
      some char) :
    ∃ cursor marked, ((start (Desk.run before) id text).run none early).mark index =
        (.ok cursor, marked) ∧
      let number := ((start (Desk.run before) id text).run none early).desk.cursors.length
      ∀ between index' char',
        (marked.run (some number) between).text.toList[index']? = some char' →
        ∃ cursor' again, (marked.run (some number) between).mark index' = (.ok cursor', again) ∧
          let number' := (marked.run (some number) between).desk.cursors.length
          let spared := fun event : Event =>
            event.disturbs number = false ∧ event.disturbs number' = false
          ∀ meantime, (∀ event ∈ meantime, spared event) →
            let met := again.run none meantime
            met.desk.store.position cursor = met.desk.store.position cursor' →
            ∀ late, (∀ event ∈ late, spared event) →
              let final := met.run none late
              final.desk.store.position cursor = final.desk.store.position cursor' := by
  rcases start_holds (Desk.run_agrees before) within text with ⟨first, firstHolds⟩
  rcases firstHolds.leads_run none early with ⟨_, ⟨shape, holds, _⟩, _⟩
  generalize (start (Desk.run before) id text).run none early = scene at found holds
  rw [Scene.text, holds.shows.text, String.toList_ofList] at found
  rcases holds.mark found with ⟨cursor, marked, made, _, _, markedHolds, follows⟩
  refine ⟨cursor, marked, made, ?_⟩
  intro number between index' char' found'
  rcases markedHolds.leads_run (some number) between with ⟨_, ⟨middle, middleHolds, carries⟩, _⟩
  have followsMiddle := carries number cursor char _ rfl follows
  generalize marked.run (some number) between = halfway at found' middleHolds followsMiddle
  rw [Scene.text, middleHolds.shows.text, String.toList_ofList] at found'
  rcases middleHolds.mark found' with ⟨cursor', again, made', _, _, againHolds, followsAgain'⟩
  have followsAgain := middleHolds.follows_mark made' followsMiddle
  refine ⟨cursor', again, made', ?_⟩
  intro number' spared meantime quiet met meet late quiet'
  rcases againHolds.follows_run meantime with ⟨metShape, changes, metHolds, carried⟩
  have followsMet := carried _ _ _ _ (fun event member => (quiet event member).1) followsAgain
  have followsMet' := carried _ _ _ _ (fun event member => (quiet event member).2) followsAgain'
  rcases metHolds.follows_run late with ⟨lastShape, later, lastHolds, carried'⟩
  have followsLast := carried' _ _ _ _ (fun event member => (quiet' event member).1) followsMet
  have followsLast' := carried' _ _ _ _ (fun event member => (quiet' event member).2) followsMet'
  intro final
  simp only [final, met]
  rw [followsLast.position lastHolds, followsLast'.position lastHolds,
    followsMet.fate_eq followsMet' meet]

/-- A cursor made at the end of ab is equal to one made in front of x when xy has been put
there, and is in front of z when that is put between. -/
example :
    let history : List Command := [.newBuffer, .rope 0 "ab", .cursor 0 2, .rope 0 "xy",
      .replace 0 2 2 1, .cursor 2 2]
    let store := (Desk.run history).store
    let later := (Desk.run (history ++ [.rope 0 "z", .replace 2 2 2 4])).store
    store.position ⟨0, 0⟩ = store.position ⟨0, 1⟩ ∧
      later.peek (later.position ⟨0, 0⟩) = some 'z' ∧
      later.peek (later.position ⟨0, 1⟩) = some 'x' := by
  decide +kernel

end Scene

end Reparse
