import Reparse.Languages.Calculator
import Reparse.Proofs.Parsing.Alike

/-!
# Calculators tell no nodes apart

The rules for expressions ask of a node only whether it is an error.  What stands to the left
of an operation is put into the result as it is, so operations on nodes that are related make
results that are related.
-/

namespace Reparse

namespace Calculator

/-- Operations of one power are alike if their left sides are related. -/
inductive SlotsAlike (nodes : Node → Node → Prop) : Slot → Slot → Prop where
  | operand (power : Nat) : SlotsAlike nodes (.operand power) (.operand power)
  | operation (power : Nat) {left left' : Node} (related : nodes left left') :
      SlotsAlike nodes (.operation power left) (.operation power left')

variable {nodes : Node → Node → Prop} {slot slot' : Slot}

/-- Bodies of rules that no node makes a difference to. -/
abbrev BodiesAlike (nodes : Node → Node → Prop) (body body' : RuleBody) : Prop :=
  Body.Alike (V := vocabulary) nodes (SlotsAlike nodes) (Content.Alike (V := vocabulary) nodes) body
    body'

theorem expression_alike (corresponds : Corresponds (V := vocabulary) nodes)
    (same : SlotsAlike nodes slot slot') :
    BodiesAlike nodes (expression slot) (expression slot') := by
  cases same with
  | operation floor left => exact Body.alike_giveUp _
  | operand floor =>
      refine Body.alike_bind (Body.alike_parse (V := vocabulary) Rule.atom (.operand 0))
        fun first first' related => ?_
      rw [(corresponds first first' related).1]
      cases isError first'.label with
      | true => exact Body.alike_adopt corresponds related
      | false =>
          refine Body.alike_bind (Body.alike_loop related fun left left' lefts => ?_)
            fun _ _ => Body.alike_adopt corresponds
          refine Body.alike_bind_same Body.alike_mark fun saved => ?_
          refine Body.alike_bind (Body.alike_parse (V := vocabulary) Rule.operation
            (.operation floor lefts)) fun next next' nexts => ?_
          rw [(corresponds next next' nexts).1]
          cases isError next'.label with
          | true =>
              refine Body.alike_bind_same (Body.alike_restore saved) fun _ => ?_
              exact Body.alike_pure ⟨lefts, rfl⟩
          | false => exact Body.alike_pure ⟨nexts, rfl⟩

theorem atom_alike (corresponds : Corresponds (V := vocabulary) nodes) :
    BodiesAlike nodes atom atom := by
  refine Body.alike_bind_same (Body.alike_isNext _) fun isOpen => ?_
  cases isOpen with
  | true =>
      refine Body.alike_bind_same (Body.alike_lex _) fun _ => ?_
      refine Body.alike_bind (Body.alike_parse (V := vocabulary) Rule.expression (.operand 0))
        fun _ _ inner => ?_
      refine Body.alike_bind_same (Body.alike_lex _) fun _ => ?_
      exact Body.alike_adopt corresponds inner
  | false =>
      refine Body.alike_bind_same (Body.alike_lex number) fun digits => ?_
      simp only
      cases Numeral.readNat maxNumber digits.toList with
      | ok value => exact Body.alike_pure ⟨rfl, .nil⟩
      | error error => exact Body.alike_giveUp _

theorem operation_alike (same : SlotsAlike nodes slot slot') :
    BodiesAlike nodes (operation slot) (operation slot') := by
  cases same with
  | operand floor => exact Body.alike_giveUp _
  | operation floor left =>
      refine Body.alike_bind_same (Body.alike_lex operatorSign) fun operator => ?_
      by_cases loose : power operator ≤ floor
      · simp only [if_pos loose]
        exact Body.alike_giveUp _
      · simp only [if_neg loose]
        refine Body.alike_bind (Body.alike_parse (V := vocabulary) Rule.expression
          (.operand (power operator))) fun _ _ right => ?_
        exact Body.alike_pure ⟨rfl, .cons left (.cons right .nil)⟩

/-- States that are the same are one state, since they refer to one node. -/
theorem eq_of_sameState (same : grammar.sameState slot slot' = true) : slot = slot' := by
  cases slot with
  | operand power =>
      cases slot' with
      | operand power' => rw [eq_of_beq (same : (power == power') = true)]
      | operation power' left' => cases same
  | operation power left =>
      cases slot' with
      | operand power' => cases same
      | operation power' left' =>
          rcases Bool.and_eq_true_iff.mp same with ⟨samePower, sameLeft⟩
          rw [eq_of_beq samePower, eq_of_beq sameLeft]

theorem discreet : grammar.Discreet SlotsAlike where
  mono := by
    intro nodes nodes' grows slot slot' same
    cases same with
    | operand power => exact .operand power
    | operation power related => exact .operation power (grows _ _ related)
  bodies := by
    intro nodes corresponds rule slot slot' same
    cases rule with
    | expression => exact expression_alike corresponds same
    | atom => exact atom_alike corresponds
    | operation => exact operation_alike same
  same := by
    intro slot slot' same nodes other
    rw [eq_of_sameState same]

end Calculator

end Reparse
