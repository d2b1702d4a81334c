import Reparse.Proofs.Lexing.Tokens
import Reparse.Proofs.Parsing.Reuse
import Reparse.Proofs.Program
import Reparse.Proofs.Rope.Resting

/-!
# Parsing edits nothing

A parse adds cursors to the store and changes nothing else of it.  It only ever
goes to settled places, and puts its cursors there.  This is so whether or not it
uses kept nodes again, so it is said of the parser and also of one that never looks
for a kept node.

A body that was refused stays in the books of the session, and so does one that
goes on for ever.  A session that is complete at the end was complete all along.
-/

namespace Reparse

variable {V : Vocabulary} {α : Type}

namespace Parser

/-- Answer an invocation without looking for a kept node, be it for the invocation or for one
that it makes. -/
def recompute (parser : Parser V) : Nat → Descent V
  | 0 => parser.execute none
  | depth + 1 => parser.execute (some (parser.recompute depth))

end Parser

/-! ## Tokens -/

namespace Buffer

variable {first second buffer : Buffer}

theorem SameTrees.lex (same : first.SameTrees second) (token : Token α) (place : Place) :
    token.lex second place = token.lex first place := by
  have reading : (fun {β : Type} => @Reading.handle second β) =
      fun {β : Type} => @Reading.handle first β := by
    funext β reading place
    cases reading <;> simp only [Reading.handle, same.forward, same.peek, same.backward, same.indexOf]
  have rounds : second.roundsFrom = first.roundsFrom := by
    funext place
    rw [roundsFrom, roundsFrom, lengthAround, lengthAround, same.rootOf, same.length]
  rw [Token.lex, Token.lex, reading, rounds]

theorem SameTrees.roundsFrom (same : first.SameTrees second) (place : Place) :
    second.roundsFrom place = first.roundsFrom place := by
  rw [Buffer.roundsFrom, Buffer.roundsFrom, lengthAround, lengthAround, same.rootOf, same.length]

theorem SameTrees.isNext (same : first.SameTrees second) (token : Token α) (place : Place) :
    token.isNext second place = token.isNext first place := by
  rw [Token.isNext, Token.isNext, same.lex]

theorem SameTrees.lexFirst (same : first.SameTrees second) (tokens : List (Token α)) (place : Place)
    (message : String) :
    Token.lexFirst tokens second place message = Token.lexFirst tokens first place message := by
  simp only [Token.lexFirst, same.lex]

theorem SameTrees.skipFrom (same : first.SameTrees second) (tokens : List (Token α)) (place : Place) :
    Token.skipFrom tokens second place = Token.skipFrom tokens first place := by
  rw [Token.skipFrom, Token.skipFrom, same.roundsFrom]
  generalize first.roundsFrom place = rounds
  induction rounds generalizing place with
  | zero => rfl
  | succ rounds inductionHypothesis => simp only [Token.skipWithin, same.lex, inductionHypothesis]

/-- A token that is started at a settled place only comes to settled places. -/
theorem WellFormed.rests_reading (formed : buffer.WellFormed) (reading : Reading α) (place : Place)
    (rests : buffer.Rests place) : buffer.Rests (reading.handle buffer place).2 := by
  cases reading with
  | next count => exact formed.rests_forward rests.has count
  | nextChar =>
      rw [Reading.handle]
      split
      · exact formed.rests_forward rests.has 1
      · exact rests
  | peek => exact rests
  | back count => exact formed.rests_backward rests.has count
  | position => exact rests

end Buffer

/-! ## Sessions -/

namespace Session

variable {session before after : Session V}

/-- Every body was run, and came to an end. -/
structure Complete (session : Session V) : Prop where
  ends : session.endless = false
  ran : session.refused = []

/-- The kept nodes have cursors, both in one buffer. -/
structure Seated (session : Session V) : Prop where
  sound : session.store.Sound
  kept : ∀ rule state entry, session.Holds rule state entry →
    entry.node.stop.buffer = entry.node.start.buffer ∧
      (∃ place, session.store.place? entry.node.start = some place) ∧
      ∃ place, session.store.place? entry.node.stop = some place

/-- What one session has in common with a later one, if nothing is edited between them. -/
structure Leads (before after : Session V) : Prop where
  keeps : before.store.Keeps after.store
  ran : after.refused = [] → before.refused = []
  complete : after.Complete → before.Complete

theorem Leads.refl (session : Session V) : session.Leads session :=
  ⟨Store.Keeps.refl _, id, id⟩

theorem Leads.trans {first second third : Session V} (one : first.Leads second)
    (two : second.Leads third) : first.Leads third :=
  ⟨one.keeps.trans two.keeps, one.ran ∘ two.ran, one.complete ∘ two.complete⟩

/-- Sessions that differ in their memos and in what they count. -/
theorem Leads.of_eq (store : after.store = before.store) (refused : after.refused = before.refused)
    (endless : after.endless = before.endless) : before.Leads after := by
  refine ⟨store ▸ Store.Keeps.refl _, fun ran => refused ▸ ran, fun complete => ?_⟩
  exact ⟨endless ▸ complete.ends, refused ▸ complete.ran⟩

theorem Seated.fewer (seated : before.Seated) (store : after.store = before.store)
    (fewer : ∀ rule state entry, after.Holds rule state entry →
      ∃ old, before.Holds rule state old ∧ old.node = entry.node) : after.Seated := by
  refine ⟨store ▸ seated.sound, fun rule state entry holds => ?_⟩
  rcases fewer rule state entry holds with ⟨old, held, same⟩
  rw [store, ← same]
  exact seated.kept rule state old held

/-- Cursors may be added to the store of a session. -/
theorem Seated.withStore (seated : session.Seated) {store : Store} (sound : store.Sound)
    (keeps : session.store.Keeps store) : { session with store }.Seated := by
  refine ⟨sound, fun rule state entry holds => ?_⟩
  rcases seated.kept rule state entry holds with ⟨inBuffer, ⟨first, start⟩, last, stop⟩
  exact ⟨inBuffer, ⟨first, keeps.places _ _ start⟩, last, keeps.places _ _ stop⟩

/-- A node was made of a content and kept, with cursors at two positions. -/
structure Enters (session after : Session V) (rule : V.Rule) (key : StateKey V) (node : V.Node)
    (start stop : Position) (content : Content V.Label V.Skip) (before skipped : List V.Skip) :
    Prop where
  seated : after.Seated
  keeps : session.store.Keeps after.store
  refused : after.refused = session.refused
  endless : after.endless = session.endless
  label : node.label = content.label
  children : node.children = content.children
  length : node.length = session.store.indexOf stop - session.store.indexOf start
  skips : node.origin.before = before ∧ node.origin.after = skipped
  start : node.start.buffer = start.buffer ∧ after.store.place? node.start = some start.place
  stop : node.stop.buffer = stop.buffer ∧ after.store.place? node.stop = some stop.place
  held : ∀ rule' state entry, after.Holds rule' state entry →
    session.Holds rule' state entry ∨
      rule' = rule ∧ entry.node = node ∧ (state = key.state ∨ key.isSame state = true)

theorem Seated.keep_spec (seated : session.Seated) {start stop : Position}
    (starts : session.store.Rests start) (stops : session.store.Rests stop)
    (inBuffer : stop.buffer = start.buffer) (rule : V.Rule) (key : StateKey V)
    (content : Content V.Label V.Skip) (before skipped : List V.Skip) :
    let made := session.keep rule key start stop content before skipped
    session.Enters made.2 rule key made.1 start stop content before skipped := by
  rcases seated.sound.cursorAt_keeps starts.has with ⟨firstSound, firstKeeps, firstBuffer, firstPlace⟩
  have stopThere := (firstKeeps.trees.rests stops).has
  rcases firstSound.cursorAt_keeps stopThere with ⟨lastSound, lastKeeps, lastBuffer, lastPlace⟩
  simp only [keep]
  generalize session.store.cursorAt start = seatedFirst at *
  rcases seatedFirst with ⟨one, storeOne⟩
  generalize storeOne.cursorAt stop = seatedLast at *
  rcases seatedLast with ⟨two, storeTwo⟩
  simp only at *
  have keeps := firstKeeps.trans lastKeeps
  have onePlace := lastKeeps.places one start.place firstPlace
  refine ⟨⟨lastSound, fun rule' state entry holds => ?_⟩, keeps, rfl, rfl, rfl, rfl, rfl, ⟨rfl, rfl⟩,
    ⟨firstBuffer, onePlace⟩, ⟨lastBuffer, lastPlace⟩, fun rule' state entry holds => ?_⟩
  · rcases of_holds_insert holds with old | ⟨rfl, rfl, _⟩
    · have held : session.Holds rule' state entry := old
      exact (seated.withStore lastSound keeps).kept rule' state entry held
    · exact ⟨lastBuffer.trans (inBuffer.trans firstBuffer.symm), ⟨_, onePlace⟩, _, lastPlace⟩
  · rcases of_holds_insert holds with old | ⟨rfl, rfl, same⟩
    · exact Or.inl old
    · exact Or.inr ⟨rfl, rfl, same⟩

end Session

/-! ## Invocations -/

/-- An invocation adds cursors to the store, and ends at a settled position. -/
def Descent.Steady (descend : Descent V) : Prop :=
  ∀ rule state start session, session.Seated → session.store.Rests start →
    let reply := descend rule state start session
    reply.2.Seated ∧ session.Leads reply.2 ∧ reply.1.2.buffer = start.buffer ∧
      reply.2.store.Rests reply.1.2

namespace Frame

variable {id : BufferId} {descend : Descent V} {frame : Frame V}

/-- A running body at a settled place, which remembers settled places. -/
structure Rests (frame : Frame V) (id : BufferId) : Prop where
  seated : frame.session.Seated
  place : (frame.session.store.buffer id).Rests frame.place
  marks : ∀ place ∈ frame.marks, (frame.session.store.buffer id).Rests place

/-- A body that begins at a settled place remembers no other. -/
theorem rests_begin {session : Session V} {place : Place} (seated : session.Seated)
    (rests : (session.store.buffer id).Rests place) : Rests { session, place } id :=
  ⟨seated, rests, fun place member => absurd member (Array.not_mem_empty place)⟩

theorem Rests.settleLexed (rests : frame.Rests id) {lexed : Except LexError (α × Place)}
    (moves : ∀ value stop, lexed = .ok (value, stop) →
      (frame.session.store.buffer id).Rests stop) :
    (frame.settleLexed lexed).2.Rests id ∧ frame.session.Leads (frame.settleLexed lexed).2.session := by
  rcases lexed with error | ⟨value, stop⟩
  · exact ⟨rests, Session.Leads.refl _⟩
  · exact ⟨⟨rests.seated, moves value stop rfl, rests.marks⟩, Session.Leads.refl _⟩

theorem Rests.handle (rests : frame.Rests id) (steady : descend.Steady) (action : Action V α) :
    (Frame.handle id descend action frame).2.Rests id ∧
      frame.session.Leads (Frame.handle id descend action frame).2.session := by
  have formed := (rests.seated.sound id).formed
  have still : frame.session.Leads frame.session := Session.Leads.refl _
  cases action with
  | lex token => exact rests.settleLexed fun _ _ lexed =>
      Token.lex_preserves formed.rests_reading rests.place lexed
  | isNext token => exact ⟨rests, still⟩
  | lexFirst tokens message =>
      exact rests.settleLexed fun _ _ lexed =>
        Token.lexFirst_preserves formed.rests_reading rests.place lexed
  | parse rule state =>
      rcases frame with ⟨session, place, before, skipped, marks⟩
      rcases steady rule state ⟨id, place⟩ session rests.seated rests.place with
        ⟨seated, leads, inBuffer, stops⟩
      rw [Frame.handle]
      generalize descend rule state ⟨id, place⟩ session = reply at seated leads inBuffer stops ⊢
      rcases reply with ⟨⟨node, ⟨buffer, stop⟩⟩, changed⟩
      simp only at inBuffer
      subst inBuffer
      exact ⟨⟨seated, stops, fun place member => (leads.keeps.trees _).rests (rests.marks place member)⟩,
        leads⟩
  | adoptSkips node => exact ⟨⟨rests.seated, rests.place, rests.marks⟩, still⟩
  | mark =>
      refine ⟨⟨rests.seated, rests.place, fun place member => ?_⟩, still⟩
      rcases Array.mem_push.mp member with old | rfl
      · exact rests.marks place old
      · exact rests.place
  | restore mark =>
      refine ⟨⟨rests.seated, ?_, rests.marks⟩, still⟩
      cases found : frame.marks[mark]? with
      | none =>
          simp only [Frame.handle, found, Option.getD_none]
          exact rests.place
      | some place =>
          simp only [Frame.handle, found, Option.getD_some]
          exact rests.marks place (Array.mem_of_getElem? found)
  | place => exact ⟨rests, still⟩
  | position => exact ⟨rests, still⟩
  | atEnd => exact ⟨rests, still⟩

theorem Rests.run (rests : frame.Rests id) (steady : descend.Steady)
    (program : Program (Action V) α) :
    let after := (Program.run (Frame.handle id descend) (rounds id) program frame).2
    after.Rests id ∧ frame.session.Leads after.session :=
  Program.run_preserves (fun after : Frame V => after.Rests id ∧ frame.session.Leads after.session)
    (fun action _ holds =>
      have handled := holds.1.handle steady action
      ⟨handled.1, holds.2.trans handled.2⟩) _ _ ⟨rests, Session.Leads.refl _⟩

theorem Rests.noteStop (rests : frame.Rests id) (stop : Stop) :
    (frame.noteStop stop).Rests id ∧ frame.session.Leads (frame.noteStop stop).session := by
  rw [Frame.noteStop]
  split
  · refine ⟨⟨rests.seated.fewer rfl fun _ _ entry holds => ⟨entry, holds, rfl⟩, rests.place,
      rests.marks⟩, Store.Keeps.refl _, fun ran => ran, fun complete => ?_⟩
    cases complete.ends
  · exact ⟨rests, Session.Leads.refl _⟩

end Frame

namespace Parser

variable {id : BufferId} {descend : Option (Descent V)} {frame : Frame V}

theorem runRule_steady (parser : Parser V)
    (steady : ∀ further, descend = some further → further.Steady) (rests : frame.Rests id)
    (rule : V.Rule) (state : V.State) :
    (parser.runRule descend rule state id frame).2.Rests id ∧
      frame.session.Leads (parser.runRule descend rule state id frame).2.session := by
  cases descend with
  | none => exact ⟨rests, Session.Leads.refl _⟩
  | some further =>
      have ran : (frame.run id further (parser.grammar.body rule state)).2.Rests id ∧
          frame.session.Leads (frame.run id further (parser.grammar.body rule state)).2.session :=
        rests.run (steady further rfl) _
      rw [runRule]
      split
      · next becomes =>
          rw [becomes] at ran
          exact ran
      · next becomes =>
          rw [becomes] at ran
          rcases ran.1.noteStop _ with ⟨rests', leads⟩
          exact ⟨rests', ran.2.trans leads⟩

/-- What an invocation without a kept node comes to: skip tokens, the body, skip tokens again,
and a node that is made of all this and kept. -/
theorem execute_spec (parser : Parser V)
    (steady : ∀ further, descend = some further → further.Steady) (rule : V.Rule) (state : V.State)
    {start : Position} {session : Session V} (seated : session.Seated)
    (starts : session.store.Rests start) :
    let skips := parser.grammar.skips
    let leading := Token.skipFrom skips (session.store.buffer start.buffer) start.place
    let ran := parser.runRule descend rule state start.buffer { session, place := leading.2 }
    let trailing := Token.skipFrom skips (ran.2.session.store.buffer start.buffer) ran.2.place
    let stop : Position := ⟨start.buffer, trailing.2⟩
    let reply := parser.execute descend rule state start session
    reply.1.2 = stop ∧ session.Leads ran.2.session ∧ ran.2.session.store.Rests stop ∧
      ran.2.Rests start.buffer ∧ ∃ kept,
        ran.2.session.Enters kept rule (parser.grammar.stateKey state) reply.1.1 start stop ran.1
          (leading.1 ++ ran.2.before) (ran.2.after ++ trailing.1) ∧
        reply.2 = { kept with
          refused := if descend.isNone then reply.1.1.id :: kept.refused else kept.refused } := by
  have leading := Token.skipFrom_preserves (seated.sound start.buffer).formed.rests_reading
    parser.grammar.skips starts
  simp only [execute]
  generalize Token.skipFrom parser.grammar.skips (session.store.buffer start.buffer) start.place =
    skipped at leading ⊢
  rcases skipped with ⟨front, first⟩
  rcases parser.runRule_steady steady (Frame.rests_begin seated leading) rule state with
    ⟨rests, leads⟩
  simp only
  generalize parser.runRule descend rule state start.buffer { session, place := first } = outcome
    at rests leads ⊢
  rcases outcome with ⟨content, ⟨session', reached, taken, following, marks⟩⟩
  have trailing := Token.skipFrom_preserves (rests.seated.sound start.buffer).formed.rests_reading
    parser.grammar.skips rests.place
  simp only at trailing ⊢
  generalize Token.skipFrom parser.grammar.skips (session'.store.buffer start.buffer) reached =
    skipped at trailing ⊢
  rcases skipped with ⟨back, last⟩
  exact ⟨trivial, leads, trailing, rests, _,
    rests.seated.keep_spec (leads.keeps.trees.rests starts) (show Store.Rests _ ⟨_, last⟩ from trailing)
      rfl rule (parser.grammar.stateKey state) content (front ++ taken) (following ++ back), rfl⟩

theorem execute_steady (parser : Parser V)
    (steady : ∀ further, descend = some further → further.Steady) :
    Descent.Steady (parser.execute descend) := by
  intro rule state start session seated starts
  rcases parser.execute_spec steady rule state seated starts with
    ⟨stops, leads, trailing, _, kept, enters, becomes⟩
  simp only
  rw [stops, becomes]
  generalize (parser.execute descend rule state start session).1.1.id = number
  refine ⟨enters.seated.fewer rfl fun _ _ entry holds => ⟨entry, holds, rfl⟩, leads.trans ?_, rfl,
    enters.keeps.trees.rests trailing⟩
  have ran : (if descend.isNone then number :: kept.refused else kept.refused) = [] →
      kept.refused = [] := by
    intro none
    split at none
    · cases none
    · exact none
  exact ⟨enters.keeps, fun none => enters.refused ▸ ran none,
    fun complete => ⟨enters.endless ▸ complete.ends, enters.refused ▸ ran complete.ran⟩⟩

theorem visit_steady (parser : Parser V) (isStale : Range → Bool)
    (steady : ∀ further, descend = some further → further.Steady) :
    Descent.Steady (parser.visit isStale descend) := by
  intro rule state start session seated starts
  have cases := session.reuse_cases rule (parser.grammar.stateKey state) start isStale
  simp only [visit]
  generalize session.reuse rule (parser.grammar.stateKey state) start isStale = outcome at cases ⊢
  rcases cases with ⟨memos, stats, consulted, held, rfl |
    ⟨state, entry, reused, isSame, holds, isStart, attached, rfl⟩⟩
  · have searched : { session with memos, stats, consulted }.Seated := seated.fewer rfl held
    rcases parser.execute_steady steady rule state start _ searched starts with
      ⟨seated', leads, inBuffer, stops⟩
    have still : session.Leads { session with memos, stats, consulted } :=
      Session.Leads.of_eq rfl rfl rfl
    exact ⟨seated', still.trans leads, inBuffer, stops⟩
  · rcases seated.kept rule state entry holds with ⟨sameBuffer, ⟨first, startSits⟩, last, stopSits⟩
    refine ⟨seated.fewer rfl held, Session.Leads.of_eq rfl rfl rfl, ?_,
      seated.sound.rests_position stopSits⟩
    rw [Store.position_of_place? startSits] at isStart
    rw [Store.position_of_place? stopSits, sameBuffer, ← isStart]

theorem invoke_steady (parser : Parser V) (isStale : Range → Bool) (depth : Nat) :
    Descent.Steady (parser.invoke isStale depth) := by
  induction depth with
  | zero => exact parser.visit_steady isStale fun _ impossible => by cases impossible
  | succ depth inductionHypothesis =>
      refine parser.visit_steady isStale fun further same => ?_
      cases same
      exact inductionHypothesis

theorem recompute_steady (parser : Parser V) (depth : Nat) :
    Descent.Steady (parser.recompute depth) := by
  induction depth with
  | zero => exact parser.execute_steady fun _ impossible => by cases impossible
  | succ depth inductionHypothesis =>
      refine parser.execute_steady fun further same => ?_
      cases same
      exact inductionHypothesis

end Parser

end Reparse
