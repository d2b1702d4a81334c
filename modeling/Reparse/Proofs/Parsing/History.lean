import Reparse.Languages.Words
import Reparse.Proofs.Parsing.Recall

namespace Reparse

/-!
# The history of a document

A document is edited, parsed and compacted in any order.  Its history puts the
journals of all parses behind one another, each line with the text that was
parsed.  An edit adds no line, but it is entered in the log of edits until the
next parse has dropped what the log reports.
-/

variable {V : Vocabulary}

namespace Document

/-- What may be asked of a document. -/
inductive Command where
  | replace (start stop : Nat) (text : String)
  | parse
  | compact
deriving DecidableEq, Repr

end Document

/-- A document with the journals of all its parses, the latest line first. -/
structure History (V : Vocabulary) where
  document : Document V
  lines : List Line := []

namespace History

def start (text : String) : History V := { document := .ofString text }

def step (parser : Parser V) (history : History V) : Document.Command → History V
  | .replace start stop text =>
    { history with document := (history.document.replace parser.grammar start stop text).2 }
  | .parse =>
    let parsed := (history.document.parse parser).2
    ⟨parsed, parsed.session.linesOver history.document.text.toList history.lines⟩
  | .compact => { history with document := history.document.compact }

def run (parser : Parser V) (history : History V) (commands : List Document.Command) : History V :=
  commands.foldl (step parser) history

/-- The lines follow from one another, and account for all that is kept. -/
def Recalls (history : History V) (margin : Nat) : Prop :=
  ∃ shape, history.document.session.Recalls margin history.document.rope shape
    history.document.log history.lines

variable {history : History V} {parser : Parser V}

theorem start_recalls (text : String) (margin : Nat) :
    (start text : History V).Recalls margin := by
  rcases Document.fulfils_ofString (V := V) (.ofLines margin []) text with ⟨shape, fulfils, _⟩
  exact ⟨shape, fulfils, trivial, fun _ member => absurd member List.not_mem_nil⟩

/-- What is accounted for when a parse begins, at the start of the text. -/
theorem Recalls.begin {margin : Nat} {shape : Shape} {document : Document V} {lines : List Line}
    (recalls : document.session.Recalls margin document.rope shape document.log lines) :
    let begun := (document.evictEdited margin).beginSweep
    begun.Parses margin document.rope shape lines ∧
      ∃ place, begun.store.positionAt document.rope 0 = ⟨document.rope.buffer, place⟩ ∧
        shape.IsPlace place := by
  have kept : document.Fulfils (.ofLines margin lines) shape := recalls.fulfils
  rcases kept.begin rfl with ⟨begun, place, origin, stands⟩
  rcases document.evictEdited_eq margin with ⟨memos, stats, evicted⟩
  refine ⟨⟨begun, recalls.follow, fun line member id span isMade => ?_⟩, place, origin, 0, stands⟩
  rw [evicted]
  exact recalls.numbered line member id span isMade

/-- What is accounted for when the parse has ended. -/
theorem Recalls.sweep {margin : Nat} {rope : Rope} {shape : Shape} {session : Session V}
    {earlier : List Line} (parses : session.Parses margin rope shape earlier) :
    session.sweep.2.linesOver shape.text earlier = session.linesOver shape.text earlier ∧
      session.sweep.2.Recalls margin rope shape {} (session.linesOver shape.text earlier) := by
  rcases session.sweep_eq with ⟨memos, reused, swept⟩
  refine ⟨by rw [swept]; rfl, parses.fulfils.sweep, parses.follow, fun line member id span isMade => ?_⟩
  have below := parses.numbered line member id span isMade
  simp only [swept]
  exact below

/-- A parse keeps what it begins with, and adds the lines of its journal. -/
theorem Recalls.parse (recalls : history.Recalls parser.config.editMargin) :
    (history.step parser .parse).Recalls parser.config.editMargin := by
  rcases recalls with ⟨shape, recalls⟩
  have kept : history.document.Fulfils (.ofLines parser.config.editMargin history.lines) shape :=
    recalls.fulfils
  have text : history.document.text.toList = shape.text := by
    rw [kept.text_eq, String.toList_ofList]
  rcases Recalls.begin recalls with ⟨parses, place, origin, isPlace⟩
  have done := parser.invoke_recalls (history.document.isEdited parser.config.editMargin)
    parser.config.maxDepth parser.grammar.startRule parser.grammar.startState place _ parses isPlace
  simp only [step, Document.parse, Parser.parse, origin]
  generalize parser.invoke (history.document.isEdited parser.config.editMargin) parser.config.maxDepth
    parser.grammar.startRule parser.grammar.startState ⟨history.document.rope.buffer, place⟩
    (history.document.evictEdited parser.config.editMargin).beginSweep = reply at done ⊢
  rcases reply with ⟨⟨tree, stop⟩, parsed⟩
  rcases Recalls.sweep done.1 with ⟨lines, recalls⟩
  refine ⟨shape, ?_⟩
  rw [text, lines]
  exact recalls

theorem Recalls.step (recalls : history.Recalls parser.config.editMargin)
    (command : Document.Command) : (history.step parser command).Recalls parser.config.editMargin := by
  cases command with
  | parse => exact recalls.parse
  | replace start stop text =>
      rcases recalls with ⟨shape, fulfils, follow, numbered⟩
      have kept : history.document.Fulfils (.ofLines parser.config.editMargin history.lines) shape :=
        fulfils
      rcases kept.replace parser.grammar start stop text with ⟨⟨shape', fulfils', _⟩, store, same⟩
      refine ⟨shape', fulfils', follow, fun line member id span isMade => ?_⟩
      simp only [History.step, same]
      exact numbered line member id span isMade
  | compact =>
      rcases recalls with ⟨shape, fulfils, follow, numbered⟩
      have kept : history.document.Fulfils (.ofLines parser.config.editMargin history.lines) shape :=
        fulfils
      rcases kept.compact with ⟨shape', fulfils', _⟩
      exact ⟨shape', fulfils', follow, numbered⟩

theorem Recalls.run (recalls : history.Recalls parser.config.editMargin)
    (commands : List Document.Command) :
    (history.run parser commands).Recalls parser.config.editMargin := by
  induction commands generalizing history with
  | nil => exact recalls
  | cons command commands inductionHypothesis => exact inductionHypothesis (recalls.step command)

end History

namespace Line

theorem AllFollow.of_append {margin : Nat} {after before : List Line}
    (follow : AllFollow margin (after ++ before)) : AllFollow margin before := by
  induction after with
  | nil => exact follow
  | cons line after inductionHypothesis => exact inductionHypothesis follow.2

/-- No two lines tell of the making of one node. -/
theorem AllFollow.made_unique {margin : Nat} {lines : List Line} (follow : AllFollow margin lines)
    {one two : Line} (isOne : one ∈ lines) (isTwo : two ∈ lines) {id : Nat} {span span' : Range}
    (made : one.note = .made id span) (made' : two.note = .made id span') : one = two := by
  induction lines with
  | nil => exact absurd isOne List.not_mem_nil
  | cons line before inductionHypothesis =>
      rcases follow with ⟨follows, follow⟩
      rcases List.mem_cons.mp isOne with rfl | inOne <;> rcases List.mem_cons.mp isTwo with rfl | inTwo
      · rfl
      · rw [Follows, made] at follows
        exact absurd made' (follows two inTwo span')
      · rw [Follows, made'] at follows
        exact absurd made (follows one inOne span)
      · exact inductionHypothesis follow inOne inTwo

end Line

namespace History

/-- A node is only used again, from its start up to an end not before it, in the
surroundings that it was made in.  Its span is as long as it was, and the text is the same
up to one character beyond the margin, as are the distances to the ends of the text that
are no longer than that. -/
theorem reused_in_its_surroundings (parser : Parser V) (text : String)
    (commands : List Document.Command) {before after : List Line} {line : Line} {id : Nat}
    {span : Range} (lines : ((start text).run parser commands).lines = after ++ line :: before)
    (reused : line.note = .reused id span) (forward : span.start ≤ span.stop) :
    span.stop ≤ line.text.length ∧
      ∃ origin ∈ before, ∃ made, origin.note = .made id made ∧
        (∀ other ∈ ((start text).run parser commands).lines, ∀ span',
          other.note = .made id span' → other = origin) ∧
        made.start ≤ made.stop ∧ made.stop ≤ origin.text.length ∧
        span.stop - span.start = made.stop - made.start ∧
        surroundings line.text (parser.config.editMargin + 1) span =
          surroundings origin.text (parser.config.editMargin + 1) made := by
  rcases (start_recalls text parser.config.editMargin).run commands with ⟨shape, recalls⟩
  have follow := recalls.follow
  rw [lines] at follow ⊢
  have follows := follow.of_append.1
  rw [Line.Follows, reused] at follows
  rcases follows forward with ⟨within, origin, member, made, isMade, ordered, within', same⟩
  refine ⟨within, origin, member, made, isMade, fun other inLines span' isMade' => ?_, ordered,
    within', length_of_surroundings within' within same, same⟩
  exact follow.made_unique inLines
    (List.mem_append_right _ (List.mem_cons_of_mem _ member)) isMade' isMade

/-- The first of two words is used again after an edit of the other. -/
theorem reused_first_word :
    let parser : Parser Words.vocabulary := { grammar := Words.grammar }
    let history := (start "ab cd").run parser [.parse, .replace 5 5 "e", .parse]
    let edited := "ab cde".toList
    let text := "ab cd".toList
    let before : List Line :=
      [⟨text, .made 2 ⟨0, 5⟩⟩, ⟨text, .made 1 ⟨3, 5⟩⟩, ⟨text, .made 0 ⟨0, 3⟩⟩]
    history.lines = [⟨edited, .made 4 ⟨0, 6⟩⟩, ⟨edited, .made 3 ⟨3, 6⟩⟩] ++
        ⟨edited, .reused 0 ⟨0, 3⟩⟩ :: before ∧
      ∃ origin ∈ before, ∃ made, origin.note = .made 0 made ∧
        surroundings edited 2 ⟨0, 3⟩ = surroundings origin.text 2 made := by
  intro parser history edited text before
  have lines : history.lines = [⟨edited, .made 4 ⟨0, 6⟩⟩, ⟨edited, .made 3 ⟨3, 6⟩⟩] ++
      ⟨edited, .reused 0 ⟨0, 3⟩⟩ :: before := by decide +kernel
  rcases reused_in_its_surroundings parser "ab cd" [.parse, .replace 5 5 "e", .parse] lines rfl
    (by decide) with ⟨_, origin, member, made, isMade, _, _, _, _, same⟩
  exact ⟨lines, origin, member, made, isMade, same⟩

end History

end Reparse
