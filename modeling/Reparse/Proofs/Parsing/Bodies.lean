import Reparse.Proofs.Lexing.Tokens
import Reparse.Proofs.Parsing.Reuse

namespace Reparse

/-!
# What bodies yield

A body that was not run because of its depth leaves an error node behind, and
everything made of that node is worth nothing.  What a body yields is therefore
said for the case that no body was refused.  Once one is refused its number stays
with the session, so the case is the same for all that follows.

The rules below tell what each step of a body does to its frame.  Tokens are
read over the text, at the index of the place.
-/

variable {V : Vocabulary} {α : Type}

/-- Numbers of refused bodies are never forgotten. -/
def Descent.KeepsRefused (descend : Descent V) : Prop :=
  ∀ rule state start session, session.refused ≠ [] →
    (descend rule state start session).2.refused ≠ []

namespace Frame

/-- A body ends as the goal says, unless a body was refused. -/
abbrev Yields (frame : Frame V) (id : BufferId) (descend : Descent V) (body : Body V α)
    (goal : Except Stop α → Frame V → Prop) : Prop :=
  Program.Yields (handle id descend) (rounds id) (fun frame => frame.session.refused ≠ []) body
    frame goal

variable {frame : Frame V} {id : BufferId} {descend : Descent V} {shape : Shape} {index : Nat}

theorem handle_keepsRefused (keeps : descend.KeepsRefused) {β : Type} (action : Action V β)
    (frame : Frame V) (refused : frame.session.refused ≠ []) :
    (frame.handle id descend action).2.session.refused ≠ [] := by
  have settled : ∀ {β : Type} (lexed : Except LexError (β × Place)),
      (frame.settleLexed lexed).2.session.refused ≠ [] := by
    rintro β (error | ⟨value, place⟩)
    · exact refused
    · exact refused
  cases action with
  | lex token => exact settled _
  | lexFirst tokens message => exact settled _
  | parse rule state => exact keeps rule state ⟨id, frame.place⟩ frame.session refused
  | isNext token => exact refused
  | adoptSkips node => exact refused
  | mark => exact refused
  | restore mark => exact refused
  | place => exact refused
  | position => exact refused
  | atEnd => exact refused

theorem yields_bind (keeps : descend.KeepsRefused) {β : Type} {first : Body V α}
    {next : α → Body V β} {goal : Except Stop β → Frame V → Prop}
    (yields : frame.Yields id descend first
      (Program.either (fun answer after => after.Yields id descend (next answer) goal)
        fun stop after => goal (.error stop) after)) :
    frame.Yields id descend (first >>= next) goal :=
  Program.yields_bind (fun action frame refused => handle_keepsRefused keeps action frame refused)
    yields

@[simp] theorem refused_noteStop (frame : Frame V) (stop : Stop) :
    (frame.noteStop stop).session.refused = frame.session.refused := by
  rw [noteStop]
  split <;> rfl

variable {goal : Except Stop α → Frame V → Prop}

theorem yields_giveUp {reason : Abort} (holds : goal (.error (.abort reason)) frame) :
    frame.Yields id descend (Body.giveUp reason) goal :=
  Program.yields_throw holds

/-- A loop ends, and not for having run out of rounds, if a measure falls in each of them. -/
theorem yields_loop (keeps : descend.KeepsRefused) (invariant : α → Frame V → Nat → Prop)
    {part : α → Body V (α × Bool)}
    (round : ∀ answer (frame : Frame V) measure, invariant answer frame measure →
      frame.Yields id descend (part answer)
        (Program.either (fun next after => match next with
            | (next, true) => ∃ smaller, smaller < measure ∧ invariant next after smaller
            | (next, false) => goal (.ok next) after)
          fun stop after => goal (.error stop) after))
    {start : α} {measure : Nat} (initial : invariant start frame measure)
    (enough : measure < rounds id frame) : frame.Yields id descend (Body.loop start part) goal := by
  have stays : ∀ {β : Type} (action : Action V β) (frame : Frame V), frame.session.refused ≠ [] →
      (frame.handle id descend action).2.session.refused ≠ [] :=
    fun action frame refused => handle_keepsRefused keeps action frame refused
  refine yields_bind keeps (Program.yields_loop stays
    (fun (state : α × Bool) frame measure => invariant state.1 frame measure) ?_ initial enough)
  rintro ⟨answer, flag⟩ before measure holds
  refine yields_bind keeps (Program.Yields.imp (round answer before measure holds) ?_)
  rintro (stop | ⟨next, _ | _⟩) after known
  · exact known
  · have ends : after.Yields id descend (pure next) goal := Program.yields_pure known
    exact Or.inr ends
  · exact Or.inr known

/-- A token that is read moves the place, and one that is not stops the body. -/
theorem run_lex (frame : Frame V) (id : BufferId) (descend : Descent V) (token : Token α) :
    Program.run (handle id descend) (rounds id) (Body.lex token).run frame =
      match token.lex (frame.session.store.buffer id) frame.place with
      | .ok (value, place) => (.ok value, { frame with place })
      | .error error => (.error (.abort error.toAbort), frame) := by
  have act : Program.run (handle id descend) (rounds id)
      (Body.act (.lex token) : Body V (Except LexError α)).run frame =
      (.ok (frame.settleLexed (token.lex (frame.session.store.buffer id) frame.place)).1,
        (frame.settleLexed (token.lex (frame.session.store.buffer id) frame.place)).2) := rfl
  rw [Body.lex, Program.run_bind, act]
  rcases token.lex (frame.session.store.buffer id) frame.place with error | ⟨value, place⟩ <;> rfl

section Steps

variable {β : Type} {next : α → Body V β} {goal : Except Stop β → Frame V → Prop}

theorem yields_lex (keeps : descend.KeepsRefused)
    (current : (frame.session.store.buffer id).Current shape) (stands : shape.Stands frame.place index)
    {token : Token α}
    (holds : match token.read shape.text index with
      | .ok (value, last) => ∀ place, shape.Stands place last →
        Frame.Yields { frame with place } id descend (next value) goal
      | .error error => goal (.error (.abort error.toAbort)) frame) :
    frame.Yields id descend (Body.lex token >>= next) goal := by
  have lexed := token.lex_eq current stands
  refine yields_bind keeps (Or.inr ?_)
  rw [run_lex]
  cases result : token.read shape.text index with
  | error error =>
      rw [result] at holds lexed
      simp only at holds lexed
      rw [lexed]
      exact holds
  | ok answer =>
      rcases answer with ⟨value, last⟩
      rw [result] at holds lexed
      rcases lexed with ⟨stop, lexed, stands'⟩
      rw [lexed]
      exact holds stop stands'

theorem yields_isNext (keeps : descend.KeepsRefused)
    (current : (frame.session.store.buffer id).Current shape)
    (stands : shape.Stands frame.place index) {token : Token α} {next : Bool → Body V β}
    (holds : frame.Yields id descend (next (token.read shape.text index).toBool) goal) :
    frame.Yields id descend (Body.isNext token >>= next) goal := by
  have lexed := token.lex_eq current stands
  have same : token.isNext (frame.session.store.buffer id) frame.place =
      (token.read shape.text index).toBool := by
    rw [Token.isNext]
    cases result : token.read shape.text index with
    | error error =>
        rw [result] at lexed
        simp only at lexed
        rw [lexed]
        rfl
    | ok answer =>
        rcases answer with ⟨value, last⟩
        rw [result] at lexed
        rcases lexed with ⟨stop, lexed, _⟩
        rw [lexed]
        rfl
  rw [← same] at holds
  exact yields_bind keeps (Or.inr holds)

theorem yields_atEnd (keeps : descend.KeepsRefused)
    (current : (frame.session.store.buffer id).Current shape) (stands : shape.Stands frame.place index)
    {next : Bool → Body V β}
    (holds : frame.Yields id descend (next shape.text[index]?.isNone) goal) :
    frame.Yields id descend (Body.atEnd >>= next) goal := by
  rw [← current.shown.peek stands] at holds
  exact yields_bind keeps (Or.inr holds)

theorem yields_parse (keeps : descend.KeepsRefused) {rule : V.Rule} {state : V.State}
    {next : V.Node → Body V β}
    (holds : let reply := descend rule state ⟨id, frame.place⟩ frame.session
      reply.2.refused ≠ [] ∨
        Frame.Yields { frame with session := reply.2, place := reply.1.2.place } id descend
          (next reply.1.1) goal) :
    frame.Yields id descend (Body.parse rule state >>= next) goal :=
  yields_bind keeps holds

theorem yields_mark (keeps : descend.KeepsRefused) {next : Nat → Body V β}
    (holds : Frame.Yields { frame with marks := frame.marks.push frame.place } id descend
      (next frame.marks.size) goal) :
    frame.Yields id descend (Body.mark >>= next) goal :=
  yields_bind keeps (Or.inr holds)

theorem yields_restore (keeps : descend.KeepsRefused) {mark : Nat} {place : Place}
    (marked : frame.marks[mark]? = some place) {next : Unit → Body V β}
    (holds : Frame.Yields { frame with place } id descend (next ()) goal) :
    frame.Yields id descend (Body.restore mark >>= next) goal := by
  have restored : frame.marks[mark]?.getD frame.place = place := by rw [marked, Option.getD_some]
  subst restored
  exact yields_bind keeps (Or.inr holds)

end Steps

theorem yields_adopt {node : V.Node}
    {goal : Except Stop (Content V.Label V.Skip) → Frame V → Prop}
    (holds : ∀ before after, goal (.ok node.content) { frame with before, after }) :
    frame.Yields id descend (Body.adopt node) goal :=
  Or.inr (holds _ _)

end Frame

/-! ## Invocations -/

namespace Parser

variable {descend : Option (Descent V)}

theorem runRule_keepsRefused (parser : Parser V)
    (keeps : ∀ further, descend = some further → further.KeepsRefused) (rule : V.Rule)
    (state : V.State) (id : BufferId) (frame : Frame V) (refused : frame.session.refused ≠ []) :
    (parser.runRule descend rule state id frame).2.session.refused ≠ [] := by
  cases descend with
  | none => exact refused
  | some further =>
      have after : (Frame.run id further (parser.grammar.body rule state) frame).2.session.refused ≠
          [] :=
        Program.run_preserves (fun frame => frame.session.refused ≠ [])
          (fun action frame refused => Frame.handle_keepsRefused (keeps further rfl) action frame
            refused) _ _ refused
      rw [runRule]
      split
      · next becomes =>
          rw [becomes] at after
          exact after
      · next becomes =>
          rw [becomes] at after
          rw [Frame.refused_noteStop]
          exact after

theorem visit_keepsRefused (parser : Parser V) (isStale : Range → Bool)
    (keeps : ∀ further, descend = some further → further.KeepsRefused) :
    Descent.KeepsRefused (parser.visit isStale descend) := by
  intro rule state start session refused
  rw [← (session.reuse_runs_nothing rule (parser.grammar.stateKey state) start isStale).1] at refused
  simp only [visit]
  generalize session.reuse rule (parser.grammar.stateKey state) start isStale = outcome at refused ⊢
  rcases outcome with ⟨_ | found, session⟩
  · simp only [execute]
    generalize Token.skipFrom parser.grammar.skips _ start.place = skipped
    have ran := parser.runRule_keepsRefused keeps rule state start.buffer
      { session, place := skipped.2 } refused
    generalize parser.runRule descend rule state start.buffer _ = outcome at ran ⊢
    split
    · exact List.cons_ne_nil _ _
    · exact ran
  · exact refused

/-- A body that may not be run is refused. -/
theorem execute_none (parser : Parser V) (rule : V.Rule) (state : V.State) (start : Position)
    (session : Session V) : (parser.execute none rule state start session).2.refused ≠ [] := by
  simp only [execute]
  rw [if_pos Option.isNone_none]
  exact List.cons_ne_nil _ _

theorem invoke_keepsRefused (parser : Parser V) (isStale : Range → Bool) (depth : Nat) :
    Descent.KeepsRefused (parser.invoke isStale depth) := by
  induction depth with
  | zero => exact parser.visit_keepsRefused isStale fun _ impossible => by cases impossible
  | succ depth inductionHypothesis =>
      refine parser.visit_keepsRefused isStale fun further same => ?_
      cases same
      exact inductionHypothesis

end Parser

end Reparse
