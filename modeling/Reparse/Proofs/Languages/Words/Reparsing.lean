import Reparse.Proofs.Languages.Words.Rules
import Reparse.Proofs.Parsing.Reparsing

namespace Reparse

/-!
# Reparsing lists of words

A list of words is found again as it would be found in a new document, but for one thing.
The label of a lone number sign names the index at which its token failed.  Its node is kept
when the text in front of it is edited, and moves with the text, but the index stays what it
was.  The two trees agree in everything else, and they are alike if the text has no lone
number sign.

The node can be kept only if no edit touches the character behind it, since this character
decides that the number sign is lone.  So the margin of the parser has to be at least one.
-/

namespace Words

theorem starts (margin : Nat) (wide : 1 ≤ margin) : (findings margin wide).Starts .items where
  asks _ := rfl
  registered known := registered known
  wanted _ := trivial

/-- Labels that are the same, or tell of tokens that failed at one place or another. -/
def SameUpToPlace (label label' : Label) : Prop :=
  label = label' ∨ ∃ position position',
    label = grammar.lexerError position ∧ label' = grammar.lexerError position'

theorem admits_sameUpToPlace (text : List Char) : Admits SameUpToPlace text where
  same _ := Or.inl rfl
  places _ _ position position' := Or.inr ⟨position, position', rfl, rfl⟩

theorem admits_eq {text : List Char} (noSign : ∀ index, ¬LoneSign (text.drop index)) :
    Admits Eq text where
  same _ := rfl
  places index lone := absurd lone (noSign index)

/-- Each parse in the history of a document and the parse of a new document with the same text
come to an end, and find what is derived from the text, unless a body is refused for its
depth. -/
theorem derives_of_reparsed (config : Config) (wide : 1 ≤ config.editMargin) (text : String)
    (commands : List Document.Command) :
    let parser : Parser vocabulary := ⟨grammar, config⟩
    let document := ((History.start text).run parser commands).document
    let fresh : Document vocabulary := .ofString document.text
    (document.parse parser).2.session.refused = [] → (fresh.parse parser).2.session.refused = [] →
      ((document.parse parser).2.session.endless = false ∧
        (fresh.parse parser).2.session.endless = false) ∧
      Derives (.node .items) document.text.toList (document.parse parser).1.outline ∧
        Derives (.node .items) document.text.toList (document.freshTree parser).outline := by
  intro parser document fresh unrefused freshUnrefused
  have sound : (findings config.editMargin wide).Sound := findings_sound config.editMargin wide
  have start := starts config.editMargin wide
  rcases sound.reparsed start rfl text commands unrefused with ⟨ends, derives⟩
  rcases sound.parsed start rfl document.text freshUnrefused with ⟨freshEnds, freshDerives⟩
  exact ⟨⟨ends, freshEnds⟩, derives, freshDerives⟩

/-- A document that is parsed again has the tree of a new document, up to the places of lexer
errors. -/
theorem reparsed_up_to_places (config : Config) (wide : 1 ≤ config.editMargin) (text : String)
    (commands : List Document.Command) :
    let parser : Parser vocabulary := ⟨grammar, config⟩
    let document := ((History.start text).run parser commands).document
    let fresh : Document vocabulary := .ofString document.text
    (document.parse parser).2.session.refused = [] → (fresh.parse parser).2.session.refused = [] →
      (document.parse parser).2.session.endless = false ∧
        (fresh.parse parser).2.session.endless = false ∧
        Outline.Related SameUpToPlace (document.parse parser).1.outline
          (document.freshTree parser).outline := by
  intro parser document fresh unrefused freshUnrefused
  rcases derives_of_reparsed config wide text commands unrefused freshUnrefused with
    ⟨⟨ends, freshEnds⟩, derives, freshDerives⟩
  exact ⟨ends, freshEnds, derives.unique (admits_sameUpToPlace _) freshDerives⟩

/-- Without a lone number sign a document that is parsed again has the tree of a new one. -/
theorem reparsed_without_lone_sign (config : Config) (wide : 1 ≤ config.editMargin) (text : String)
    (commands : List Document.Command) :
    let parser : Parser vocabulary := ⟨grammar, config⟩
    let document := ((History.start text).run parser commands).document
    let fresh : Document vocabulary := .ofString document.text
    (∀ index, ¬LoneSign (document.text.toList.drop index)) →
      (document.parse parser).2.session.refused = [] → (fresh.parse parser).2.session.refused = [] →
      (document.parse parser).1.alike (document.freshTree parser) = true := by
  intro parser document fresh noSign unrefused freshUnrefused
  rcases derives_of_reparsed config wide text commands unrefused freshUnrefused with
    ⟨_, derives, freshDerives⟩
  rw [Tree.alike_iff_outline]
  exact Outline.eq_of_related (derives.unique (admits_eq noSign) freshDerives)

/-- The place of a lone number sign is stale once a letter was inserted in front of it. -/
example :
    let parser : Parser vocabulary := ⟨grammar, {}⟩
    let document := ((History.start "ab #").run parser [.parse, .replace 0 0 "x"]).document
    (document.parse parser).1.alike (document.freshTree parser) = false := by
  decide +kernel

end Words

end Reparse
