import Reparse.Proofs.Parsing.Findings
import Reparse.Proofs.Parsing.History

namespace Reparse

/-!
# What a document finds when it is parsed again

A document is edited, parsed and compacted in any order.  What its parser keeps is
at all times what the rules find in the text, and no edit breaks this promise, if
the parser leaves as much margin as the findings ask for.  Each parse therefore
finds what there is to find in the current text, whatever was parsed before.

A new document is one with an empty history.  So two parses of one text find the
same in it as far as its findings are determined, be one of them the parse of a
new document or not.

A body that is refused for its depth leaves a node behind that says nothing about
the text.  So nothing is said of a parse in whose history this has happened.
-/

variable {V : Vocabulary}

/-- Numbers of refused bodies are kept when a document is parsed. -/
theorem Document.parse_keepsRefused (document : Document V) (parser : Parser V)
    (refused : document.session.refused ≠ []) : (document.parse parser).2.session.refused ≠ [] := by
  rcases document.evictEdited_eq parser.config.editMargin with ⟨memos, stats, evicted⟩
  have begun : (document.evictEdited parser.config.editMargin).beginSweep.refused ≠ [] := by
    rw [evicted]
    exact refused
  have kept := parser.invoke_keepsRefused (document.isEdited parser.config.editMargin)
    parser.config.maxDepth parser.grammar.startRule parser.grammar.startState
    ((document.evictEdited parser.config.editMargin).beginSweep.store.positionAt document.rope 0) _
    begun
  simp only [Document.parse, Parser.parse]
  rcases Session.sweep_eq (parser.invoke (document.isEdited parser.config.editMargin)
    parser.config.maxDepth parser.grammar.startRule parser.grammar.startState
    ((document.evictEdited parser.config.editMargin).beginSweep.store.positionAt document.rope 0)
    (document.evictEdited parser.config.editMargin).beginSweep).2 with ⟨_, _, swept⟩
  rw [swept]
  exact kept

@[simp] theorem Document.text_ofString (text : String) : (ofString text : Document V).text = text := by
  rcases fulfils_ofString (V := V) (.ofLines 0 []) text with ⟨shape, fulfils, isText⟩
  rw [fulfils.text_eq, isText, String.ofList_toList]

namespace Findings

variable {grammar : Grammar V} {findings : Findings grammar} {goal : findings.Goal}
  {document : Document V} {config : Config} {shape : Shape} {known : Known V}

/-- All that a document keeps is as promised, and every body has come to an end. -/
structure Remembers (findings : Findings grammar) (document : Document V) (shape : Shape)
    (known : Known V) : Prop where
  fulfils : document.Fulfils (findings.promise known) shape
  unknown : ∀ id, document.session.nextId ≤ id → known id = none
  ends : document.session.endless = false

/-- A document is as it should be, unless a body was refused. -/
def Holds (findings : Findings grammar) (document : Document V) : Prop :=
  document.session.refused ≠ [] ∨ ∃ shape known, findings.Remembers document shape known

/-- What a grammar starts with asks for a goal, whatever is known. -/
structure Starts (findings : Findings grammar) (goal : findings.Goal) : Prop where
  asks : ∀ known, findings.Asks known grammar.startRule grammar.startState goal
  registered : ∀ known, grammar.Registered known grammar.startState
  wanted : ∀ text, findings.Wanted goal text 0

theorem holds_ofString (findings : Findings grammar) (text : String) :
    findings.Holds (.ofString text) := by
  rcases Document.fulfils_ofString (findings.promise fun _ => none) text with ⟨shape, fulfils, _⟩
  exact Or.inr ⟨shape, fun _ => none, fulfils, fun _ _ => rfl, rfl⟩

theorem Holds.replace (holds : findings.Holds document) (start stop : Nat) (text : String) :
    findings.Holds (document.replace grammar start stop text).2 := by
  rcases holds with refused | ⟨shape, known, fulfils, unknown, ends⟩
  · rcases document.replace_session grammar start stop text with ⟨store, same⟩
    refine Or.inl ?_
    rw [same]
    exact refused
  · rcases fulfils.replace grammar start stop text with ⟨⟨shape', fulfils', _⟩, store, same⟩
    refine Or.inr ⟨shape', known, fulfils', ?_, ?_⟩
    · rw [same]
      exact unknown
    · rw [same]
      exact ends

theorem Holds.compact (holds : findings.Holds document) : findings.Holds document.compact := by
  rcases holds with refused | ⟨shape, known, fulfils, unknown, ends⟩
  · exact Or.inl refused
  · rcases fulfils.compact with ⟨shape', fulfils', _⟩
    exact Or.inr ⟨shape', known, fulfils', unknown, ends⟩

/-- When a parse begins it is at the start of the text, and all that is kept is as promised. -/
theorem Remembers.begin (remembers : findings.Remembers document shape known) {margin : Nat}
    (same : findings.margin = margin) :
    let session := (document.evictEdited margin).beginSweep
    findings.Tells ⟨document.rope, shape⟩ session known ∧
      ∃ place, session.store.positionAt document.rope 0 = ⟨document.rope.buffer, place⟩ ∧
        shape.Stands place 0 := by
  rcases remembers with ⟨fulfils, unknown, ends⟩
  rcases fulfils.begin same with ⟨begun, origin⟩
  rcases document.evictEdited_eq margin with ⟨memos, stats, evicted⟩
  refine ⟨⟨begun, ?_, ?_⟩, origin⟩
  · rw [evicted]
    exact unknown
  · rw [evicted]
    exact ends

/-- A parse finds what there is to find in the text. -/
theorem Remembers.parse (remembers : findings.Remembers document shape known)
    (sound : findings.Sound) (starts : findings.Starts goal)
    (margin : findings.margin = config.editMargin) :
    let parsed := document.parse ⟨grammar, config⟩
    parsed.2.session.refused ≠ [] ∨
      (∃ more, findings.Remembers parsed.2 shape more) ∧
        findings.Whole goal document.text.toList 0 parsed.1.outline := by
  rcases remembers.begin margin with ⟨tells, place, origin, stands⟩
  have answers : findings.Answers ⟨document.rope, shape⟩ known goal 0
      ((⟨grammar, config⟩ : Parser V).invoke (document.isEdited config.editMargin)
        config.maxDepth grammar.startRule grammar.startState ⟨document.rope.buffer, place⟩
        (document.evictEdited config.editMargin).beginSweep) :=
    (sound.descends_invoke _ config (document.isEdited config.editMargin) config.maxDepth).finds
      tells (starts.asks known) (starts.registered known) (starts.wanted _) stands
  have text : document.text.toList = shape.text := by
    rw [remembers.fulfils.text_eq, String.toList_ofList]
  simp only [Document.parse, Parser.parse, origin, text]
  generalize (⟨grammar, config⟩ : Parser V).invoke (document.isEdited config.editMargin)
    config.maxDepth grammar.startRule grammar.startState ⟨document.rope.buffer, place⟩
    (document.evictEdited config.editMargin).beginSweep = reply at answers ⊢
  rcases reply with ⟨⟨tree, stop⟩, parsed⟩
  rcases parsed.sweep_eq with ⟨sweptMemos, sweptReused, swept⟩
  rcases answers with refused | ⟨more, _, finds⟩
  · refine Or.inl ?_
    simp only [swept]
    exact refused
  · refine Or.inr ⟨⟨more, finds.tells.fulfils.sweep, ?_, ?_⟩, finds.whole⟩
    · simp only [swept]
      exact finds.tells.unknown
    · simp only [swept]
      exact finds.tells.ends

/-- A parse keeps the document as it should be. -/
theorem Holds.parse (holds : findings.Holds document) (sound : findings.Sound)
    (starts : findings.Starts goal) (margin : findings.margin = config.editMargin) :
    findings.Holds (document.parse ⟨grammar, config⟩).2 := by
  rcases holds with refused | ⟨shape, known, remembers⟩
  · exact Or.inl (document.parse_keepsRefused ⟨grammar, config⟩ refused)
  · rcases remembers.parse sound starts margin with refused | ⟨⟨more, remembers⟩, _⟩
    · exact Or.inl refused
    · exact Or.inr ⟨shape, more, remembers⟩

theorem Sound.holds_run (sound : findings.Sound) (starts : findings.Starts goal)
    (margin : findings.margin = config.editMargin) (text : String)
    (commands : List Document.Command) :
    findings.Holds ((History.start text).run ⟨grammar, config⟩ commands).document := by
  have initial : findings.Holds (History.start text).document := findings.holds_ofString text
  generalize History.start text = history at initial ⊢
  induction commands generalizing history with
  | nil => exact initial
  | cons command commands inductionHypothesis =>
      refine inductionHypothesis _ ?_
      cases command with
      | replace start stop text => exact initial.replace start stop text
      | parse => exact initial.parse sound starts margin
      | compact => exact initial.compact

/-- Each parse in the history of a document comes to an end and finds what there is to find in
its text, unless a body was refused. -/
theorem Sound.reparsed (sound : findings.Sound) (starts : findings.Starts goal)
    (margin : findings.margin = config.editMargin) (text : String)
    (commands : List Document.Command) :
    let document := ((History.start text).run ⟨grammar, config⟩ commands).document
    let parsed := document.parse ⟨grammar, config⟩
    parsed.2.session.refused = [] →
      parsed.2.session.endless = false ∧
        findings.Whole goal document.text.toList 0 parsed.1.outline := by
  intro document parsed unrefused
  rcases sound.holds_run starts margin text commands with refused | ⟨shape, known, remembers⟩
  · exact absurd unrefused (document.parse_keepsRefused ⟨grammar, config⟩ refused)
  · rcases remembers.parse sound starts margin with refused | ⟨⟨more, remembers⟩, whole⟩
    · exact absurd unrefused refused
    · exact ⟨remembers.ends, whole⟩

/-- The parse of a new document comes to an end and finds what there is to find in the text. -/
theorem Sound.parsed (sound : findings.Sound) (starts : findings.Starts goal)
    (margin : findings.margin = config.editMargin) (text : String) :
    let parsed := (Document.ofString text : Document V).parse ⟨grammar, config⟩
    parsed.2.session.refused = [] →
      parsed.2.session.endless = false ∧ findings.Whole goal text.toList 0 parsed.1.outline := by
  have found := sound.reparsed starts margin text []
  simp only [History.run, List.foldl_nil, History.start, Document.text_ofString] at found
  exact found

end Findings

end Reparse
