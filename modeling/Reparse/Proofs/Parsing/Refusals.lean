import Reparse.Proofs.Parsing.Bodies
import Reparse.Proofs.Parsing.History

namespace Reparse

/-!
# Refusals that come back

A body that is not run for its depth leaves an error node behind.  The number of the
node is entered among the refusals of the session, and the node is kept like any
other.

An invocation that may still run its body never makes such a node.  It can find one,
though, that an earlier invocation of the same rule at the same position was given
when fewer bodies could still nest.  So a refusal depends on how deep a rule was
tried before, and outlasts the nesting that was the cause of it.
-/

variable {V : Vocabulary}

namespace Parser

/-- What stands for the body of a rule that was not run. -/
def refusal (parser : Parser V) (rule : V.Rule) : Content V.Label V.Skip :=
  ⟨parser.grammar.unhandledError (.tooDeep (parser.grammar.name rule) parser.config.maxDepth), []⟩

end Parser

namespace Session

variable {parser : Parser V} {session : Session V}

/-- Every number that a refusal has was given out, and every refusal that is kept is that of
the rule it is kept for. -/
structure Refuses (session : Session V) (parser : Parser V) : Prop where
  numbered : ∀ id ∈ session.refused, id < session.nextId
  kept : ∀ rule state entry, session.Holds rule state entry → entry.node.id < session.nextId ∧
    (entry.node.id ∈ session.refused → entry.node.content = parser.refusal rule)

/-- A session without refusals and kept nodes. -/
theorem refuses_of_empty (refused : session.refused = []) (memos : session.memos = []) :
    session.Refuses parser := by
  constructor
  · intro id member
    rw [refused] at member
    exact absurd member List.not_mem_nil
  · rintro rule state entry ⟨memo, member, _⟩
    rw [memos] at member
    exact absurd member List.not_mem_nil

/-- Fewer nodes may be kept. -/
theorem Refuses.fewer {other : Session V} (refuses : session.Refuses parser)
    (nextId : other.nextId = session.nextId) (refused : other.refused = session.refused)
    (fewer : ∀ rule state entry, other.Holds rule state entry →
      ∃ old, session.Holds rule state old ∧ old.node = entry.node) : other.Refuses parser := by
  constructor
  · rw [nextId, refused]
    exact refuses.numbered
  · intro rule state entry holds
    rcases fewer rule state entry holds with ⟨old, held, same⟩
    rw [nextId, refused, ← same]
    exact refuses.kept rule state old held

/-- A refusal that is found was kept for the rule that is invoked. -/
def Repeats (session : Session V) (parser : Parser V) (rule : V.Rule) (key : StateKey V)
    (start : Position) (node : V.Node) : Prop :=
  ∃ state entry, key.isSame state = true ∧ session.Holds rule state entry ∧ entry.node = node ∧
    session.store.position node.start = start ∧ node.id ∈ session.refused ∧
    node.content = parser.refusal rule

theorem Refuses.reuse (refuses : session.Refuses parser) (rule : V.Rule) (key : StateKey V)
    (start : Position) (isStale : Range → Bool) :
    let after := session.reuse rule key start isStale
    after.2.Refuses parser ∧ after.2.refused = session.refused ∧
      ∀ node stop, after.1 = some (node, stop) → node.id ∈ session.refused →
        session.Repeats parser rule key start node := by
  have cases := session.reuse_cases rule key start isStale
  generalize session.reuse rule key start isStale = outcome at cases ⊢
  rcases cases with ⟨memos, stats, consulted, held, rfl |
    ⟨state, entry, reused, isSame, holds, starts, _, rfl⟩⟩
  · exact ⟨refuses.fewer rfl rfl held, rfl, fun _ _ impossible => by cases impossible⟩
  · refine ⟨refuses.fewer rfl rfl held, rfl, fun node stop same isRefused => ?_⟩
    cases same
    exact ⟨state, entry, isSame, holds, rfl, starts, isRefused,
      (refuses.kept rule state entry holds).2 isRefused⟩

/-- A node that is made gets a number that no refusal has. -/
theorem Refuses.keep (refuses : session.Refuses parser) (rule : V.Rule) (key : StateKey V)
    (start stop : Position) (content : Content V.Label V.Skip) (before after : List V.Skip) :
    let made := session.keep rule key start stop content before after
    made.2.Refuses parser ∧ made.1.id ∉ made.2.refused ∧
      (content = parser.refusal rule →
        { made.2 with refused := made.1.id :: made.2.refused }.Refuses parser) := by
  intro made
  have nextId : made.2.nextId = session.nextId + 1 := rfl
  have refused : made.2.refused = session.refused := session.refused_keep ..
  have id : made.1.id = session.nextId := rfl
  have isContent : made.1.content = content := rfl
  have holds : ∀ rule' state entry, made.2.Holds rule' state entry →
      session.Holds rule' state entry ∨ rule' = rule ∧ entry.node = made.1 := by
    intro rule' state entry held
    rcases of_holds_insert held with old | ⟨same, rfl, _⟩
    · exact Or.inl old
    · exact Or.inr ⟨same, rfl⟩
  clear_value made
  have isNew : session.nextId ∉ session.refused := fun member =>
    Nat.lt_irrefl _ (refuses.numbered _ member)
  refine ⟨⟨?_, ?_⟩, ?_, fun isRefusal => ⟨?_, ?_⟩⟩
  · intro other member
    rw [refused] at member
    rw [nextId]
    exact Nat.lt_succ_of_lt (refuses.numbered other member)
  · intro rule' state entry held
    rw [nextId, refused]
    rcases holds rule' state entry held with old | ⟨_, same⟩
    · exact ⟨Nat.lt_succ_of_lt (refuses.kept rule' state entry old).1,
        (refuses.kept rule' state entry old).2⟩
    · rw [same, id]
      exact ⟨Nat.lt_succ_self _, fun member => absurd member isNew⟩
  · rw [id, refused]
    exact isNew
  · intro other member
    rw [id, refused] at member
    rw [nextId]
    rcases List.mem_cons.mp member with rfl | old
    · exact Nat.lt_succ_self _
    · exact Nat.lt_succ_of_lt (refuses.numbered other old)
  · intro rule' state entry held
    rw [nextId, id, refused]
    rcases holds rule' state entry held with old | ⟨rfl, same⟩
    · have below := (refuses.kept rule' state entry old).1
      refine ⟨Nat.lt_succ_of_lt below, fun member => ?_⟩
      rcases List.mem_cons.mp member with isNext | isOld
      · exact absurd isNext (Nat.ne_of_lt below)
      · exact (refuses.kept rule' state entry old).2 isOld
    · rw [same, id, isContent]
      exact ⟨Nat.lt_succ_self _, fun _ => isRefusal⟩

end Session

/-! ## Invocations -/

/-- An invocation keeps count of refusals. -/
def Descent.Refuses (descend : Descent V) (parser : Parser V) : Prop :=
  ∀ rule state start session, session.Refuses parser →
    (descend rule state start session).2.Refuses parser

theorem Frame.handle_refuses {parser : Parser V} {descend : Descent V}
    (refuses : descend.Refuses parser) (id : BufferId) {α : Type} (action : Action V α)
    (frame : Frame V) (holds : frame.session.Refuses parser) :
    (frame.handle id descend action).2.session.Refuses parser := by
  have settled : ∀ {β : Type} (lexed : Except LexError (β × Place)),
      (frame.settleLexed lexed).2.session.Refuses parser := by
    rintro β (error | ⟨value, place⟩)
    · exact holds
    · exact holds
  cases action with
  | lex token => exact settled _
  | lexFirst tokens message => exact settled _
  | parse rule state => exact refuses rule state ⟨id, frame.place⟩ frame.session holds
  | isNext token => exact holds
  | adoptSkips node => exact holds
  | mark => exact holds
  | restore mark => exact holds
  | place => exact holds
  | position => exact holds
  | atEnd => exact holds

namespace Parser

variable {parser : Parser V} {descend : Option (Descent V)}

theorem runRule_refuses (keeps : ∀ further, descend = some further → further.Refuses parser)
    (rule : V.Rule) (state : V.State) (id : BufferId) (frame : Frame V)
    (holds : frame.session.Refuses parser) :
    (parser.runRule descend rule state id frame).2.session.Refuses parser := by
  cases descend with
  | none => exact holds
  | some further =>
      have ran : (Frame.run id further (parser.grammar.body rule state) frame).2.session.Refuses
          parser :=
        Program.run_preserves (fun frame : Frame V => frame.session.Refuses parser)
          (fun action frame holds => frame.handle_refuses (keeps further rfl) id action holds) _ _
          holds
      rw [runRule]
      split
      · next becomes =>
          rw [becomes] at ran
          exact ran
      · next becomes =>
          rw [becomes] at ran
          rw [Frame.noteStop]
          split
          · exact ran.fewer rfl rfl fun _ _ entry held => ⟨entry, held, rfl⟩
          · exact ran

/-- A body that is run makes no refusal of its own. -/
theorem execute_refuses (keeps : ∀ further, descend = some further → further.Refuses parser)
    (rule : V.Rule) (state : V.State) (start : Position) {session : Session V}
    (holds : session.Refuses parser) :
    let reply := parser.execute descend rule state start session
    reply.2.Refuses parser ∧ (descend.isSome = true → reply.1.1.id ∉ reply.2.refused) := by
  simp only [execute]
  generalize Token.skipFrom parser.grammar.skips _ start.place = skipped
  have ran := runRule_refuses keeps rule state start.buffer { session, place := skipped.2 } holds
  have isRefusal : descend.isNone = true →
      (parser.runRule descend rule state start.buffer { session, place := skipped.2 }).1 =
        parser.refusal rule := by
    cases descend with
    | none => exact fun _ => rfl
    | some further => exact fun impossible => by cases impossible
  generalize parser.runRule descend rule state start.buffer _ = outcome at ran isRefusal ⊢
  rcases outcome with ⟨content, ⟨session, place, before, after, _⟩⟩
  simp only at ran isRefusal ⊢
  generalize Token.skipFrom parser.grammar.skips _ place = trailing
  have kept := ran.keep rule (parser.grammar.stateKey state) start ⟨start.buffer, trailing.2⟩ content
    (skipped.1 ++ before) (after ++ trailing.1)
  generalize session.keep rule _ start _ content _ _ = made at kept ⊢
  rcases made with ⟨node, session⟩
  cases descend with
  | none => exact ⟨kept.2.2 (isRefusal rfl), fun impossible => by cases impossible⟩
  | some further => exact ⟨kept.1, fun _ => kept.2.1⟩

theorem visit_refuses (isStale : Range → Bool)
    (keeps : ∀ further, descend = some further → further.Refuses parser) (rule : V.Rule)
    (state : V.State) (start : Position) {session : Session V} (holds : session.Refuses parser) :
    let reply := parser.visit isStale descend rule state start session
    reply.2.Refuses parser ∧ (descend.isSome = true → reply.1.1.id ∈ reply.2.refused →
      session.Repeats parser rule (parser.grammar.stateKey state) start reply.1.1) := by
  have found := holds.reuse rule (parser.grammar.stateKey state) start isStale
  simp only [visit]
  generalize session.reuse rule (parser.grammar.stateKey state) start isStale = outcome at found ⊢
  rcases outcome with ⟨_ | ⟨node, stop⟩, searched⟩
  · simp only at found ⊢
    rcases execute_refuses keeps rule state start found.1 with ⟨stays, notRefused⟩
    exact ⟨stays, fun runs isRefused => absurd isRefused (notRefused runs)⟩
  · refine ⟨found.1, fun _ isRefused => found.2.2 node stop rfl ?_⟩
    exact found.2.1 ▸ isRefused

theorem invoke_refuses (parser : Parser V) (isStale : Range → Bool) (depth : Nat) :
    Descent.Refuses (parser.invoke isStale depth) parser := by
  induction depth with
  | zero =>
      intro rule state start session holds
      exact (visit_refuses isStale (fun _ impossible => by cases impossible) rule state start holds).1
  | succ depth inductionHypothesis =>
      intro rule state start session holds
      refine (visit_refuses isStale (fun further same => ?_) rule state start holds).1
      cases same
      exact inductionHypothesis

/-- An invocation that may still run its body is answered with a refusal only if one is kept
from an earlier invocation of the same rule, for the same state, at the same position. -/
theorem refused_only_again (parser : Parser V) (isStale : Range → Bool) (depth : Nat) (rule : V.Rule)
    (state : V.State) (start : Position) {session : Session V} (holds : session.Refuses parser) :
    let reply := parser.invoke isStale (depth + 1) rule state start session
    reply.1.1.id ∈ reply.2.refused →
      session.Repeats parser rule (parser.grammar.stateKey state) start reply.1.1 := by
  refine (visit_refuses isStale (fun further same => ?_) rule state start holds).2 rfl
  cases same
  exact parser.invoke_refuses isStale depth

end Parser

/-! ## Documents -/

namespace Document

variable {parser : Parser V} {document : Document V}

/-- What a parse begins with. -/
theorem refuses_begin (holds : document.session.Refuses parser) (margin : Nat) :
    (document.evictEdited margin).beginSweep.Refuses parser := by
  rw [evictEdited]
  split
  · exact holds.fewer rfl rfl fun _ _ entry held => ⟨entry, held, rfl⟩
  · exact holds.fewer rfl rfl fun _ _ entry held => ⟨entry, (Session.of_holds_dropWhere held).1, rfl⟩

theorem refuses_parse (holds : document.session.Refuses parser) :
    (document.parse parser).2.session.Refuses parser := by
  have parsed := parser.invoke_refuses (document.isEdited parser.config.editMargin)
    parser.config.maxDepth parser.grammar.startRule parser.grammar.startState
    ((document.evictEdited parser.config.editMargin).beginSweep.store.positionAt document.rope 0) _
    (refuses_begin holds parser.config.editMargin)
  simp only [Document.parse, Parser.parse]
  generalize parser.invoke _ _ _ _ _ _ = reply at parsed ⊢
  rcases reply with ⟨⟨tree, stop⟩, session⟩
  rcases session.sweep_eq with ⟨memos, reused, swept⟩
  exact parsed.fewer (by rw [swept]) (by rw [swept]) fun _ _ entry held =>
    ⟨entry, Session.of_holds_sweep held, rfl⟩

end Document

namespace History

variable {parser : Parser V} {history : History V}

theorem refuses_step (holds : history.document.session.Refuses parser)
    (command : Document.Command) : (history.step parser command).document.session.Refuses parser := by
  cases command with
  | parse => exact Document.refuses_parse holds
  | replace start stop text =>
      rcases history.document.replace_session parser.grammar start stop text with ⟨store, same⟩
      simp only [History.step, same]
      exact holds.fewer rfl rfl fun _ _ entry held => ⟨entry, held, rfl⟩
  | compact =>
      refine ⟨holds.numbered, ?_⟩
      rintro rule state entry ⟨memo, member, _⟩
      exact absurd member List.not_mem_nil

theorem refuses_run (holds : history.document.session.Refuses parser)
    (commands : List Document.Command) :
    (history.run parser commands).document.session.Refuses parser := by
  induction commands generalizing history with
  | nil => exact holds
  | cons command commands inductionHypothesis =>
      exact inductionHypothesis (refuses_step holds command)

/-- Every parse in the history of a document begins with refusals that are kept for the rule
that was refused, and every invocation leaves it so.  An invocation that may still run its
body is only ever answered with such a refusal, that of an earlier invocation of the same
rule, for the same state, at the same position. -/
theorem refusals_only_come_back (parser : Parser V) (text : String)
    (commands : List Document.Command) :
    let document := ((start text).run parser commands).document
    (document.evictEdited parser.config.editMargin).beginSweep.Refuses parser ∧
      ∀ isStale depth rule state start (session : Session V), session.Refuses parser →
        let reply := parser.invoke isStale depth rule state start session
        reply.2.Refuses parser ∧ (0 < depth → reply.1.1.id ∈ reply.2.refused →
          session.Repeats parser rule (parser.grammar.stateKey state) start reply.1.1) := by
  intro document
  have fresh : (start text : History V).document.session.Refuses parser :=
    Session.refuses_of_empty rfl rfl
  refine ⟨Document.refuses_begin (refuses_run fresh commands) _, ?_⟩
  intro isStale depth rule state start session holds
  refine ⟨parser.invoke_refuses isStale depth rule state start session holds, fun positive => ?_⟩
  cases depth with
  | zero => exact absurd positive (Nat.lt_irrefl 0)
  | succ depth => exact parser.refused_only_again isStale depth rule state start holds

/-- The inner list is refused at the depth of four.  Without the bracket in front it would
stand at three, but the refusal is found again, and the tree is not that of a new document. -/
example :
    let parser : Parser Words.vocabulary := { grammar := Words.grammar, config := { maxDepth := 4 } }
    let document := ((start "[ [a]]").run parser [.parse, .replace 0 1 ""]).document
    Words.shape (document.parse parser).1 = "[<error> a]" ∧
      Words.shape (document.freshTree parser) = "[[a]]" := by
  decide +kernel

end History

end Reparse
