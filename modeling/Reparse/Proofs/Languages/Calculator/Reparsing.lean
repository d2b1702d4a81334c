import Reparse.Proofs.Languages.Calculator.Rules
import Reparse.Proofs.Parsing.Reparsing

namespace Reparse

/-!
# Reparsing expressions

A document of the calculator is edited, parsed and compacted in any order.  What
its parser keeps is at all times what the rules find in the text, and no edit
breaks this promise under any margin.  Each parse therefore finds what there is
to find in the current text, and that is one outline.  The parse of a new
document finds the same, so the two trees are alike.

A body that is refused for its depth leaves a node behind that says nothing
about the text.  So nothing is said once that has happened, be it in the history
of the document or in the parse of the new one.
-/

namespace Calculator

theorem starts (margin : Nat) : (findings margin).Starts (.expression 0) where
  asks _ := .expression 0
  registered known := registered_operand known 0
  wanted _ := trivial

/-- Each parse in the history of a document finds what the parse of a new document with the
same text finds, unless a body is refused for its depth, be it in the history or in the new
document.  Both parses come to an end. -/
theorem reparsed_like_new (config : Config) (text : String) (commands : List Document.Command) :
    let parser : Parser vocabulary := ⟨grammar, config⟩
    let document := ((History.start text).run parser commands).document
    let fresh : Document vocabulary := .ofString document.text
    (document.parse parser).2.session.refused = [] → (fresh.parse parser).2.session.refused = [] →
      (document.parse parser).2.session.endless = false ∧
        (fresh.parse parser).2.session.endless = false ∧
        (document.parse parser).1.alike (document.freshTree parser) = true := by
  intro parser document fresh unrefused freshUnrefused
  have sound : (findings config.editMargin).Sound := findings_sound config.editMargin
  have start := starts config.editMargin
  rcases sound.reparsed start rfl text commands unrefused with ⟨ends, derives⟩
  rcases sound.parsed start rfl document.text freshUnrefused with ⟨freshEnds, freshDerives⟩
  refine ⟨ends, freshEnds, ?_⟩
  rw [Tree.alike_iff_outline]
  exact Derives.unique derives freshDerives

/-- A sum is parsed, one of its numbers is replaced, and it is parsed again. -/
theorem reparsed_sum :
    let parser : Parser vocabulary := ⟨grammar, {}⟩
    let document := ((History.start "1+2").run parser [.parse, .replace 0 1 "34"]).document
    let fresh : Document vocabulary := .ofString document.text
    (document.parse parser).2.session.refused = [] ∧ (fresh.parse parser).2.session.refused = [] ∧
      (document.parse parser).1.alike (document.freshTree parser) = true := by
  have same := reparsed_like_new {} "1+2" [.parse, .replace 0 1 "34"] (by decide +kernel)
    (by decide +kernel)
  exact ⟨by decide +kernel, by decide +kernel, same.2.2⟩

/-- It is not enough that the history refuses nothing.  A sum is put into parentheses, and its parts
are used again without going into them.  The new document has to go down to the innermost number,
which lies deeper now. -/
theorem reparsed_unlike_deeper_new :
    let parser : Parser vocabulary := ⟨grammar, { maxDepth := 8 }⟩
    let document := ((History.start "1 + ((2)) + 3").run parser
      [.parse, .replace 0 0 "(", .replace 14 14 ")"]).document
    document.text = "(1 + ((2)) + 3)" ∧ (document.parse parser).2.session.refused = [] ∧
      render (document.parse parser).1 = "((1 + 2) + 3)" ∧
      render (document.freshTree parser) = "<error>" ∧
      (document.parse parser).1.alike (document.freshTree parser) = false := by
  decide +kernel

end Calculator

end Reparse
