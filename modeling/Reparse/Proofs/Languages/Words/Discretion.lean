import Reparse.Languages.Words
import Reparse.Proofs.Parsing.Alike

/-!
# Lists of words tell no nodes apart

The rules for lists of words look at the length of an item and at nothing else of a
node.  They have no states to speak of.
-/

namespace Reparse

namespace Words

variable {nodes : Node → Node → Prop} {states : Unit → Unit → Prop}

theorem items_alike (corresponds : Corresponds (V := vocabulary) nodes) (same : states () ()) :
    Body.Alike (V := vocabulary) nodes states (Content.Alike (V := vocabulary) nodes) items items := by
  have none : List.Forall₂ nodes [] [] := .nil
  refine Body.alike_bind (Body.alike_loop none fun found found' related => ?_)
    fun _ _ related => Body.alike_pure ⟨rfl, List.rel_reverse related⟩
  refine Body.alike_bind_same Body.alike_atEnd fun isEnd => ?_
  cases isEnd with
  | true => exact Body.alike_pure ⟨related, rfl⟩
  | false =>
      refine Body.alike_bind_same (Body.alike_isNext _) fun isClosed => ?_
      cases isClosed with
      | true => exact Body.alike_pure ⟨related, rfl⟩
      | false =>
          refine Body.alike_bind (Body.alike_parse (V := vocabulary) Rule.item same)
            fun item item' items => ?_
          refine Body.alike_pure ⟨.cons items related, ?_⟩
          rw [(corresponds item item' items).2.1]

theorem item_alike (corresponds : Corresponds (V := vocabulary) nodes) (same : states () ()) :
    Body.Alike (V := vocabulary) nodes states (Content.Alike (V := vocabulary) nodes) item item := by
  have alone : ∀ token : Token String,
      Body.Alike (V := vocabulary) nodes states (Content.Alike (V := vocabulary) nodes)
        (do return ⟨.word (← Body.lex token), []⟩) (do return ⟨.word (← Body.lex token), []⟩) := by
    intro token
    refine Body.alike_bind_same (Body.alike_lex token) fun text => ?_
    exact Body.alike_pure ⟨rfl, .nil⟩
  refine Body.alike_bind_same (Body.alike_isNext _) fun isGroup => ?_
  cases isGroup with
  | true =>
      refine Body.alike_bind_same (Body.alike_lex _) fun _ => ?_
      refine Body.alike_bind (Body.alike_parse (V := vocabulary) Rule.items same) fun _ _ inner => ?_
      refine Body.alike_bind_same (Body.alike_lex _) fun _ => ?_
      exact Body.alike_adopt corresponds inner
  | false =>
  refine Body.alike_bind_same (Body.alike_isNext _) fun isTag => ?_
  cases isTag with
  | true => exact alone tag
  | false =>
  refine Body.alike_bind_same (Body.alike_isNext _) fun isBang => ?_
  cases isBang with
  | true => exact Body.alike_bind_same (Body.alike_lex _) fun _ => Body.alike_throw _
  | false =>
  refine Body.alike_bind_same (Body.alike_isNext _) fun isQuestion => ?_
  cases isQuestion with
  | true => exact Body.alike_bind_same (Body.alike_lex _) fun _ => Body.alike_giveUp _
  | false => exact alone word

/-- There is one state only, whatever nodes are related. -/
def StatesAlike (_nodes : Node → Node → Prop) (_state _state' : Unit) : Prop := True

theorem discreet : grammar.Discreet StatesAlike where
  mono := fun _ _ _ _ => trivial
  bodies := fun corresponds rule _ _ same => by
    cases rule with
    | items => exact items_alike corresponds same
    | item => exact item_alike corresponds same
  same := fun _ _ _ => Iff.rfl

end Words

end Reparse
