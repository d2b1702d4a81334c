import Reparse.Pattern.Syntax
import Reparse.Proofs.Parsing.Alike

/-!
# Patterns tell no nodes apart

The rules for patterns look at the labels, the lengths and the children of nodes.  An operator
is put around what stands to the left, or joined to its children, so operators on nodes that are
related make results that are related.
-/

namespace Reparse

namespace Pattern

/-- Operators of one power are alike if their left sides are related. -/
inductive StatesAlike (nodes : Node → Node → Prop) : State → State → Prop where
  | operand (power : Nat) : StatesAlike nodes (.operand power) (.operand power)
  | operator (power : Nat) {left left' : Node} (related : nodes left left') :
      StatesAlike nodes (.operator power left) (.operator power left')

variable {nodes : Node → Node → Prop} {state state' : State} {left left' right right' : Node}
  {α : Type}

/-- Bodies of rules that no node makes a difference to. -/
abbrev BodiesAlike (nodes : Node → Node → Prop) (body body' : RuleBody) : Prop :=
  Body.Alike (V := vocabulary) nodes (StatesAlike nodes) (Content.Alike (V := vocabulary) nodes) body
    body'

/-- A part of a body that answers the same in any case. -/
abbrev AnswersSame (nodes : Node → Node → Prop) (part : Body vocabulary α) : Prop :=
  Body.Alike (V := vocabulary) nodes (StatesAlike nodes) Eq part part

/-! ## Operators -/

theorem peekOperator_alike : AnswersSame nodes peekOperator := by
  have choice : ∀ {β : Type} (token : Token β) (operator : Operator)
      {others : Body vocabulary (Option Operator)}, AnswersSame nodes others →
      AnswersSame nodes (do if ← Body.isNext token then return some operator else others) := by
    intro β token operator others same
    refine Body.alike_bind_same (Body.alike_isNext token) fun isNext => ?_
    cases isNext with
    | true => exact Body.alike_pure rfl
    | false => exact same
  exact choice _ _ (choice _ _ (choice _ _ (choice _ _ (choice _ _ (choice _ _
    (Body.alike_pure rfl))))))

theorem joinOperands_related (corresponds : Corresponds (V := vocabulary) nodes) (label : Label)
    (lefts : nodes left left') (rights : nodes right right') :
    List.Forall₂ nodes (joinOperands label left right) (joinOperands label left' right') := by
  rcases corresponds left left' lefts with ⟨sameLabel, _, _, _, children⟩
  rw [joinOperands, joinOperands, sameLabel]
  split
  · exact List.rel_append children (.cons rights .nil)
  · exact .cons lefts (.cons rights .nil)

theorem readCount_alike (text : String) : AnswersSame nodes (readCount text) := by
  rw [readCount]
  split
  · exact Body.alike_pure rfl
  · split
    · exact Body.alike_pure rfl
    · exact Body.alike_giveUp _

/-- The same bounds are read in any case. -/
theorem bounds_alike {next next' : Option Nat → Option Nat → RuleBody}
    (same : ∀ least most, BodiesAlike nodes (next least most) (next' least most)) :
    BodiesAlike nodes
      (do
        let least ← readCount (← Body.lex digits)
        if ← Body.isNext (symbol ",") then
          let _ ← Body.lex (symbol ",")
          let most ← readCount (← Body.lex digits)
          next least most
        else
          let most ← pure least
          next least most)
      (do
        let least ← readCount (← Body.lex digits)
        if ← Body.isNext (symbol ",") then
          let _ ← Body.lex (symbol ",")
          let most ← readCount (← Body.lex digits)
          next' least most
        else
          let most ← pure least
          next' least most) := by
  refine Body.alike_bind_same (Body.alike_lex digits) fun written => ?_
  refine Body.alike_bind_same (readCount_alike written) fun least => ?_
  refine Body.alike_bind_same (Body.alike_isNext _) fun isSecond => ?_
  cases isSecond with
  | false =>
      refine Body.alike_bind_same (Body.alike_pure (rfl : least = least)) fun most => ?_
      exact same least most
  | true =>
      refine Body.alike_bind_same (Body.alike_lex _) fun _ => ?_
      refine Body.alike_bind_same (Body.alike_lex digits) fun written' => ?_
      refine Body.alike_bind_same (readCount_alike written') fun most => ?_
      exact same least most

theorem countedRepetition_alike (lefts : nodes left left') :
    BodiesAlike nodes (countedRepetition left) (countedRepetition left') := by
  refine Body.alike_bind_same (Body.alike_lex _) fun _ => ?_
  refine bounds_alike fun least most => ?_
  have counted : BodiesAlike nodes (pure ⟨.counted least most, [left]⟩)
      (pure ⟨.counted least most, [left']⟩) := Body.alike_pure ⟨rfl, .cons lefts .nil⟩
  refine Body.alike_bind_same (Body.alike_lex _) fun _ => ?_
  split
  · exact Body.alike_giveUp _
  · split
    · exact Body.alike_giveUp _
    · split
      · exact Body.alike_giveUp _
      · exact counted
    · exact counted

theorem operator_alike (corresponds : Corresponds (V := vocabulary) nodes)
    (same : StatesAlike nodes state state') :
    BodiesAlike nodes (operator state) (operator state') := by
  cases same with
  | operand power => exact Body.alike_giveUp _
  | operator power lefts =>
      refine Body.alike_bind peekOperator_alike ?_
      rintro (_ | operator) _ rfl
      · exact Body.alike_giveUp _
      · by_cases loose : operator.power ≤ power
        · simp only [if_pos loose]
          exact Body.alike_giveUp _
        · simp only [if_neg loose]
          cases operator with
          | union =>
              refine Body.alike_bind_same (Body.alike_lex _) fun _ => ?_
              refine Body.alike_bind (Body.alike_parse (V := vocabulary) Rule.pattern (.operand _))
                fun _ _ rights => ?_
              exact Body.alike_pure ⟨rfl, joinOperands_related corresponds _ lefts rights⟩
          | concat =>
              refine Body.alike_bind (Body.alike_parse (V := vocabulary) Rule.pattern (.operand _))
                fun _ _ rights => ?_
              exact Body.alike_pure ⟨rfl, joinOperands_related corresponds _ lefts rights⟩
          | postfixed =>
              refine Body.alike_bind_same (Body.alike_lex postfixOperator) fun sign => ?_
              exact Body.alike_pure ⟨rfl, .cons lefts .nil⟩
          | counted => exact countedRepetition_alike lefts

/-! ## Operands -/

theorem pattern_alike (corresponds : Corresponds (V := vocabulary) nodes)
    (same : StatesAlike nodes state state') :
    BodiesAlike nodes (pattern state) (pattern state') := by
  cases same with
  | operator power lefts => exact Body.alike_giveUp _
  | operand power =>
      refine Body.alike_bind (Body.alike_parse (V := vocabulary) Rule.operand (.operand 0))
        fun first first' related => ?_
      rw [(corresponds first first' related).1]
      cases isError first'.label with
      | true => exact Body.alike_adopt corresponds related
      | false =>
          refine Body.alike_bind (Body.alike_loop related fun left left' lefts => ?_)
            fun _ _ => Body.alike_adopt corresponds
          refine Body.alike_bind_same Body.alike_mark fun saved => ?_
          refine Body.alike_bind (Body.alike_parse (V := vocabulary) Rule.operator
            (.operator power lefts)) fun next next' nexts => ?_
          rw [(corresponds next next' nexts).1, (corresponds next next' nexts).2.1]
          cases isError next'.label with
          | true =>
              by_cases some : next'.length > 0
              · simp only [if_pos some]
                exact Body.alike_pure ⟨nexts, rfl⟩
              · simp only [if_neg some]
                refine Body.alike_bind_same (Body.alike_restore saved) fun _ => ?_
                exact Body.alike_pure ⟨lefts, rfl⟩
          | false => exact Body.alike_pure ⟨nexts, rfl⟩

theorem charClass_alike (corresponds : Corresponds (V := vocabulary) nodes) :
    BodiesAlike nodes charClass charClass := by
  have none : List.Forall₂ nodes [] [] := .nil
  refine Body.alike_bind (Body.alike_loop none fun found found' related => ?_)
    fun found found' related => ?_
  · refine Body.alike_bind_same (Body.alike_isNext _) fun isClosed => ?_
    cases isClosed with
    | true => exact Body.alike_pure ⟨related, rfl⟩
    | false =>
        refine Body.alike_bind (Body.alike_parse (V := vocabulary) Rule.classItem (.operand 0))
          fun item item' items => ?_
        refine Body.alike_pure ⟨.cons items related, ?_⟩
        rw [(corresponds item item' items).1]
  · cases related with
    | nil => exact Body.alike_bind_same (Body.alike_lex _) fun _ => Body.alike_pure ⟨rfl, .nil⟩
    | @cons last last' rest rest' lasts rests =>
        simp only
        rw [(corresponds last last' lasts).1]
        cases isError last'.label with
        | true => exact Body.alike_adopt corresponds lasts
        | false =>
            refine Body.alike_bind_same (Body.alike_lex _) fun _ => ?_
            exact Body.alike_pure ⟨rfl, List.rel_reverse (.cons lasts rests)⟩

theorem operand_alike (corresponds : Corresponds (V := vocabulary) nodes) :
    BodiesAlike nodes operand operand := by
  refine Body.alike_bind_same (Body.alike_isNext _) fun isGroup => ?_
  cases isGroup with
  | true =>
      refine Body.alike_bind_same (Body.alike_lex _) fun _ => ?_
      refine Body.alike_bind (Body.alike_parse (V := vocabulary) Rule.pattern (.operand 0))
        fun inner inner' inners => ?_
      rw [(corresponds inner inner' inners).1]
      cases isError inner'.label with
      | true => exact Body.alike_adopt corresponds inners
      | false =>
          exact Body.alike_bind_same (Body.alike_lex _) fun _ => Body.alike_adopt corresponds inners
  | false =>
      refine Body.alike_bind_same (Body.alike_isNext _) fun isClass => ?_
      cases isClass with
      | true => exact Body.alike_bind_same (Body.alike_lex _) fun _ => charClass_alike corresponds
      | false =>
          refine Body.alike_bind_same (Body.alike_lex literal) fun text => ?_
          exact Body.alike_pure ⟨rfl, .nil⟩

theorem classItem_alike : BodiesAlike nodes classItem classItem := by
  refine Body.alike_bind_same (Body.alike_lex classChar) fun first => ?_
  refine Body.alike_bind_same (Body.alike_isNext _) fun isRange => ?_
  cases isRange with
  | true =>
      refine Body.alike_bind_same (Body.alike_lex _) fun _ => ?_
      refine Body.alike_bind_same (Body.alike_lex classChar) fun last => ?_
      by_cases inverted : last < first
      · simp only [if_pos inverted]
        exact Body.alike_giveUp _
      · simp only [if_neg inverted]
        exact Body.alike_pure ⟨rfl, .nil⟩
  | false => exact Body.alike_pure ⟨rfl, .nil⟩

/-- States that are the same are one state, since they refer to one node. -/
theorem eq_of_sameState (same : grammar.sameState state state' = true) : state = state' := by
  cases state with
  | operand power =>
      cases state' with
      | operand power' => rw [eq_of_beq (same : (power == power') = true)]
      | operator power' left' => cases same
  | operator power left =>
      cases state' with
      | operand power' => cases same
      | operator power' left' =>
          rcases Bool.and_eq_true_iff.mp same with ⟨samePower, sameLeft⟩
          rw [eq_of_beq samePower, eq_of_beq sameLeft]

theorem discreet : grammar.Discreet StatesAlike where
  mono := by
    intro nodes nodes' grows state state' same
    cases same with
    | operand power => exact .operand power
    | operator power related => exact .operator power (grows _ _ related)
  bodies := by
    intro nodes corresponds rule state state' same
    cases rule with
    | pattern => exact pattern_alike corresponds same
    | operand => exact operand_alike corresponds
    | operator => exact operator_alike corresponds same
    | classItem => exact classItem_alike
  same := by
    intro state state' same nodes other
    rw [eq_of_sameState same]

end Pattern

end Reparse
