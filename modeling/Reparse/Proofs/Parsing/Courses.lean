import Reparse.Proofs.Lexing.Tokens
import Reparse.Proofs.Parsing.Documents

namespace Reparse

/-!
# The course of a parse

A parse does two things to its session.  It looks for nodes that were kept, and it keeps
nodes that it makes.  What a body does between them only moves its place in the text.  So
whatever looking and keeping leave true holds in the whole course of a parse, and for any
grammar.
-/

variable {V : Vocabulary}

/-- What is true of a session stays true when a node is looked for or kept at a place of the
text. -/
structure Parser.Leaves (parser : Parser V) (isStale : Range → Bool) (good : Session V → Prop)
    (rope : Rope) (shape : Shape) : Prop where
  current : ∀ session, good session → (session.store.buffer rope.buffer).Current shape
  reuse : ∀ session rule state place, good session → shape.IsPlace place →
    let after := session.reuse rule (parser.grammar.stateKey state) ⟨rope.buffer, place⟩ isStale
    good after.2 ∧ ∀ node stop, after.1 = some (node, stop) →
      stop.buffer = rope.buffer ∧ shape.IsPlace stop.place
  keep : ∀ session rule state first last content before skipped, good session →
    shape.IsPlace first → shape.IsPlace last →
    good (session.keep rule (parser.grammar.stateKey state) ⟨rope.buffer, first⟩
      ⟨rope.buffer, last⟩ content before skipped).2
  noted : ∀ (session : Session V) refused endless, good session →
    good { session with refused, endless }

variable {good : Session V → Prop} {rope : Rope} {shape : Shape}

/-- An invocation at a place of the text leaves it true, and ends at a place of the text. -/
def Descent.Leaves (descend : Descent V) (good : Session V → Prop) (rope : Rope) (shape : Shape) :
    Prop :=
  ∀ rule state place session, good session → shape.IsPlace place →
    let reply := descend rule state ⟨rope.buffer, place⟩ session
    good reply.2 ∧ reply.1.2.buffer = rope.buffer ∧ shape.IsPlace reply.1.2.place

/-- A running body that has kept to its text. -/
structure Frame.Within (frame : Frame V) (good : Session V → Prop) (shape : Shape) : Prop where
  holds : good frame.session
  place : shape.IsPlace frame.place
  marks : ∀ place ∈ frame.marks, shape.IsPlace place

namespace Parser.Leaves

variable {parser : Parser V} {isStale : Range → Bool} {descend : Option (Descent V)}
  (leaves : parser.Leaves isStale good rope shape)
include leaves

theorem handle {α : Type} {descend : Descent V} {frame : Frame V}
    (descends : descend.Leaves good rope shape) (within : frame.Within good shape)
    (action : Action V α) : (Frame.handle rope.buffer descend action frame).2.Within good shape := by
  have current := leaves.current _ within.holds
  have settled : ∀ {β : Type} (lexed : Except LexError (β × Place)),
      (∀ value stop, lexed = .ok (value, stop) → shape.IsPlace stop) →
      (frame.settleLexed lexed).2.Within good shape := by
    intro β lexed moves
    rcases lexed with error | ⟨value, stop⟩
    · exact within
    · exact ⟨within.holds, moves value stop rfl, within.marks⟩
  cases action with
  | lex token =>
      exact settled _ fun _ _ lexed => Token.isPlace_lex current within.place lexed
  | isNext token => exact within
  | lexFirst tokens message =>
      exact settled _ fun _ _ lexed => Token.isPlace_lexFirst current within.place lexed
  | parse rule state =>
      rcases frame with ⟨session, place, before, skipped, marks⟩
      rcases descends rule state place session within.holds within.place with ⟨holds, _, isPlace⟩
      rw [Frame.handle]
      generalize descend rule state ⟨rope.buffer, place⟩ session = reply at holds isPlace ⊢
      rcases reply with ⟨⟨node, stop⟩, changed⟩
      exact ⟨holds, isPlace, within.marks⟩
  | adoptSkips node => exact ⟨within.holds, within.place, within.marks⟩
  | mark =>
      refine ⟨within.holds, within.place, fun place member => ?_⟩
      rcases Array.mem_push.mp member with old | rfl
      · exact within.marks place old
      · exact within.place
  | restore mark =>
      refine ⟨within.holds, ?_, within.marks⟩
      cases found : frame.marks[mark]? with
      | none =>
          simp only [Frame.handle, found, Option.getD_none]
          exact within.place
      | some place =>
          simp only [Frame.handle, found, Option.getD_some]
          exact within.marks place (Array.mem_of_getElem? found)
  | place => exact within
  | position => exact within
  | atEnd => exact within

theorem noteStop {frame : Frame V} (within : frame.Within good shape) (stop : Stop) :
    (frame.noteStop stop).Within good shape := by
  rw [Frame.noteStop]
  split
  · exact ⟨leaves.noted _ _ _ within.holds, within.place, within.marks⟩
  · exact within

theorem runRule {frame : Frame V}
    (descends : ∀ further, descend = some further → further.Leaves good rope shape)
    (within : frame.Within good shape) (rule : V.Rule) (state : V.State) :
    (parser.runRule descend rule state rope.buffer frame).2.Within good shape := by
  cases descend with
  | none => exact within
  | some further =>
      have after : (Frame.run rope.buffer further (parser.grammar.body rule state) frame).2.Within
          good shape :=
        Program.run_preserves (Frame.Within · good shape)
          (fun action _ within => leaves.handle (descends further rfl) within action) _ _ within
      rw [Parser.runRule]
      split
      · next becomes =>
          rw [becomes] at after
          exact after
      · next becomes =>
          rw [becomes] at after
          exact leaves.noteStop after _

theorem visit (descends : ∀ further, descend = some further → further.Leaves good rope shape) :
    Descent.Leaves (parser.visit isStale descend) good rope shape := by
  intro rule state place session holds isPlace
  rcases leaves.reuse session rule state place holds isPlace with ⟨searched, found⟩
  simp only [Parser.visit]
  generalize session.reuse rule (parser.grammar.stateKey state) ⟨rope.buffer, place⟩ isStale =
    outcome at searched found ⊢
  rcases outcome with ⟨_ | ⟨node, stop⟩, session⟩
  · simp only at searched ⊢
    have leading := Token.isPlace_skipFrom (leaves.current _ searched) parser.grammar.skips isPlace
    simp only [Parser.execute]
    generalize Token.skipFrom parser.grammar.skips (session.store.buffer rope.buffer) place = skipped
      at leading ⊢
    rcases skipped with ⟨before, first⟩
    have ran : (parser.runRule descend rule state rope.buffer
        { session, place := first }).2.Within good shape :=
      leaves.runRule descends ⟨searched, leading, fun _ member => by simp at member⟩ rule state
    simp only
    generalize parser.runRule descend rule state rope.buffer { session, place := first } = outcome
      at ran ⊢
    rcases outcome with ⟨content, ⟨session, reached, taken, following, marks⟩⟩
    have trailing := Token.isPlace_skipFrom (leaves.current _ ran.holds) parser.grammar.skips ran.place
    simp only at trailing ⊢
    generalize Token.skipFrom parser.grammar.skips (session.store.buffer rope.buffer) reached =
      skipped at trailing ⊢
    rcases skipped with ⟨after, last⟩
    have kept := leaves.keep session rule state place last content (before ++ taken)
      (following ++ after) ran.holds isPlace trailing
    simp only at kept ⊢
    generalize session.keep rule (parser.grammar.stateKey state) ⟨rope.buffer, place⟩
      ⟨rope.buffer, last⟩ content (before ++ taken) (following ++ after) = made at kept ⊢
    rcases made with ⟨node, session⟩
    exact ⟨leaves.noted session _ session.endless kept, trivial, trailing⟩
  · rcases found node stop rfl with ⟨buffer, stands⟩
    exact ⟨searched, buffer, stands⟩

/-- What looking and keeping leave true is true in the whole course of a parse. -/
theorem invoke (depth : Nat) : Descent.Leaves (parser.invoke isStale depth) good rope shape := by
  induction depth with
  | zero => exact leaves.visit fun _ impossible => by cases impossible
  | succ depth inductionHypothesis =>
      refine leaves.visit fun further same => ?_
      cases same
      exact inductionHypothesis

end Parser.Leaves

end Reparse
