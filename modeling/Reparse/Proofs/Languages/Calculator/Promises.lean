import Reparse.Proofs.Languages.Calculator.Discretion
import Reparse.Proofs.Languages.Calculator.Tokens
import Reparse.Proofs.Parsing.Findings

namespace Reparse

/-!
# Promises of the calculator

What a rule is to find is told by its slot.  The slot of an operation refers to
the node on its left by number, and the operation is to be found behind the
outline that is known under this number.

What is found is what the derivations say of the text from an index on.  The text
one character beyond a node decides what is found, so a node can be kept under
any margin.
-/

namespace Calculator

/-- What a rule is to look for when it is invoked with a slot. -/
inductive Asks (known : Known vocabulary) : Rule → Slot → Goal → Prop where
  | expression (power : Nat) : Asks known .expression (.operand power) (.expression power)
  | atom (slot : Slot) : Asks known .atom slot .atom
  | operation (floor : Nat) {left : Node} {outline : Outline Label}
      (named : known left.id = some outline) :
      Asks known .operation (.operation floor left) (.operation floor outline)

namespace Asks

variable {known more : Known vocabulary} {rule : Rule} {slot slot' : Slot} {goal goal' : Goal}

theorem mono (grows : known.Extends more) (asks : Asks known rule slot goal) :
    Asks more rule slot goal := by
  cases asks with
  | expression power => exact .expression power
  | atom slot => exact .atom slot
  | operation floor named => exact .operation floor (grows _ _ named)

theorem unique (asks : Asks known rule slot goal) (asks' : Asks known rule slot goal') :
    goal = goal' := by
  cases asks with
  | expression power =>
      cases asks'
      rfl
  | atom slot =>
      cases asks'
      rfl
  | operation floor named =>
      cases asks' with
      | operation floor named' => rw [Option.some.inj (named.symm.trans named')]

end Asks

/-! ## The promise -/

theorem skipEnd_eq (text : List Char) (index : Nat) :
    grammar.skipEnd text index = index + blanks (text.drop index) :=
  skip_blanks text index

/-- The rules are to find what is derived from the text behind an index. -/
def findings (margin : Nat) : Findings grammar where
  Goal := Goal
  Asks := Asks
  Wanted _ _ _ := True
  Inner goal text index outline := Derives (.body goal) (text.drop index) outline
  Whole goal text index outline := Derives (.node goal) (text.drop index) outline
  margin := margin
  asks_mono := Asks.mono
  asks_unique := Asks.unique
  asks_of_sameState same asks := eq_of_sameState same ▸ asks
  skips_forward text index := by
    rw [skipEnd_eq]
    exact Nat.le_add_right _ _
  whole_of_inner := by
    intro goal text index label length children found
    have total : grammar.skipEnd text (grammar.skipEnd text index + length) - index =
        blanks (text.drop index) + length +
          blanks ((text.drop index).drop (blanks (text.drop index) + length)) := by
      rw [skipEnd_eq, skipEnd_eq, List.drop_drop, ← Nat.add_assoc index]
      omega
    rw [skipEnd_eq, ← List.drop_drop] at found
    rw [total]
    exact .node found
  persists := by
    rintro goal text text' span span' outline forward forward' within within' same length derives
    have ahead := ahead_of_surroundings forward forward' within within' same
    have agrees : Text.Agrees (outline.length + 1) (text.drop span.start) (text'.drop span'.start) := by
      rw [← length]
      exact Text.Agrees.mono ahead (by omega)
    exact derives.of_agrees agrees

/-- A kept node is what its rule finds at its start. -/
abbrev promise (margin : Nat) (known : Known vocabulary) : Promise vocabulary :=
  (findings margin).promise known

end Calculator

end Reparse
