import Reparse.Pattern.Syntax
import Reparse.Proofs.Lexing.Tokens
import Reparse.Proofs.Parsing.Outlines

namespace Reparse

/-!
# What the rules of patterns find in a text

A derivation says what a rule finds at an index of a text, in terms of the tokens
that can be read there.  It covers patterns that are well formed, and operators
that are refused without consuming anything, since with these each pattern ends.
Malformed patterns have no derivation.

A derivation is for a rule, for one operator, for all that follow an operand, or
for the items of a class.  The length of an outline says in each case how many characters
are consumed.  There is at most one outline for each index.
-/

namespace Pattern

/-- The operator that stands at an index. -/
def operatorAt (text : List Char) (index : Nat) : Option Operator :=
  if ((symbol "|").read text index).toBool then some .union
  else if (postfixOperator.read text index).toBool then some .postfixed
  else if ((symbol "\x7b").read text index).toBool then some .counted
  else if ((symbol "(").read text index).toBool then some .concat
  else if ((symbol "[").read text index).toBool then some .concat
  else if (literal.read text index).toBool then some .concat
  else none

/-- The label for a postfix operator. -/
def signLabel (sign : String) : Label :=
  if sign = "*" then .star else if sign = "+" then .plus else .optional

/-! ## Counts -/

/-- What digits are read as. -/
inductive Counts : String → Option Nat → Prop where
  | none {written : String} (isEmpty : written.isEmpty = true) : Counts written none
  | some {written : String} {count : Nat} (notEmpty : written.isEmpty = false)
      (read : Numeral.readNat (Numeral.greatestOf 64) written.toList = .ok count) :
      Counts written (some count)

/-- The bounds of a count at an index, and how many characters they take. -/
inductive Bounded (text : List Char) (index : Nat) : Option Nat → Option Nat → Nat → Prop where
  | exactly {count : Option Nat} {written : String} {length : Nat}
      (read : digits.read text index = .ok (written, index + length)) (counts : Counts written count)
      (single : ((symbol ",").read text (index + length)).toBool = false) :
      Bounded text index count count length
  | between {least most : Option Nat} {written written' comma : String} {length length' : Nat}
      (read : digits.read text index = .ok (written, index + length)) (counts : Counts written least)
      (several : (symbol ",").read text (index + length) = .ok (comma, index + length + 1))
      (read' : digits.read text (index + length + 1) =
        .ok (written', index + length + 1 + length'))
      (counts' : Counts written' most) :
      Bounded text index least most (length + 1 + length')

/-- Bounds are accepted that are not too large, not missing, and not the wrong way round. -/
structure Accepted (least most : Option Nat) : Prop where
  small : (largerCount least most).filter (maxRepeat < ·) = none
  some : ¬(least = none ∧ most = none)
  ordered : ∀ first second, least = .some first → most = .some second → first ≤ second

/-! ## Derivations -/

/-- What a rule looks for.  An operator goes with the outline of its left side. -/
inductive Goal where
  | pattern (power : Nat)
  | operand
  | operator (power : Nat) (left : Outline Label)
  | classItem

/-- A goal, an operator that is known to stand here, what follows an operand in a pattern, or
what is left of a class. -/
inductive Task where
  | goal (goal : Goal)
  | applied (operator : Operator) (left : Outline Label)
  | rest (power : Nat) (left : Outline Label)
  | items

/-- The operands of a union or a sequence. -/
def joinOutlines (label : Label) (left right : Outline Label) : List (Outline Label) :=
  if left.label = label then left.children ++ [right] else [left, right]

/-- The outline that a task finds at an index of a text. -/
inductive Derives (text : List Char) : Task → Nat → Outline Label → Prop where
  | pattern {power index : Nat} {first last : Outline Label}
      (operand : Derives text (.goal .operand) index first) (noError : isError first.label = false)
      (rest : Derives text (.rest power first) (index + first.length) last) :
      Derives text (.goal (.pattern power)) index
        ⟨last.label, first.length + last.length, last.children⟩
  | group {index : Nat} {inner : Outline Label} {opening closing : String}
      (opens : (symbol "(").read text index = .ok (opening, index + 1))
      (pattern : Derives text (.goal (.pattern 0)) (index + 1) inner)
      (noError : isError inner.label = false)
      (closes : (symbol ")").read text (index + 1 + inner.length) =
        .ok (closing, index + 1 + inner.length + 1)) :
      Derives text (.goal .operand) index ⟨inner.label, 1 + inner.length + 1, inner.children⟩
  | charClass {index : Nat} {found : Outline Label} {opening closing : String}
      (noGroup : ((symbol "(").read text index).toBool = false)
      (opens : (symbol "[").read text index = .ok (opening, index + 1))
      (items : Derives text .items (index + 1) found)
      (closes : (symbol "]").read text (index + 1 + found.length) =
        .ok (closing, index + 1 + found.length + 1)) :
      Derives text (.goal .operand) index ⟨.charClass, 1 + found.length + 1, found.children⟩
  | literal {index length : Nat} {chars : List Char}
      (noGroup : ((symbol "(").read text index).toBool = false)
      (noClass : ((symbol "[").read text index).toBool = false)
      (read : literal.read text index = .ok (chars, index + length)) :
      Derives text (.goal .operand) index ⟨.literal chars, length, []⟩
  | noOperator {power index : Nat} {left : Outline Label} (none : operatorAt text index = none) :
      Derives text (.goal (.operator power left)) index ⟨.error "expected an operator", 0, []⟩
  | loose {power index : Nat} {left : Outline Label} {operator : Operator}
      (found : operatorAt text index = some operator) (isLoose : operator.power ≤ power) :
      Derives text (.goal (.operator power left)) index
        ⟨.error "operator binds too loosely", 0, []⟩
  | operator {power index : Nat} {left outline : Outline Label} {operator : Operator}
      (found : operatorAt text index = some operator) (isTight : power < operator.power)
      (applied : Derives text (.applied operator left) index outline) :
      Derives text (.goal (.operator power left)) index outline
  | union {index : Nat} {left right : Outline Label} {sign : String}
      (read : (symbol "|").read text index = .ok (sign, index + 1))
      (operand : Derives text (.goal (.pattern Operator.union.power)) (index + 1) right) :
      Derives text (.applied .union left) index
        ⟨.union, 1 + right.length, joinOutlines .union left right⟩
  | concat {index : Nat} {left right : Outline Label}
      (operand : Derives text (.goal (.pattern Operator.concat.power)) index right) :
      Derives text (.applied .concat left) index
        ⟨.concat, right.length, joinOutlines .concat left right⟩
  | postfixed {index : Nat} {left : Outline Label} {sign : String}
      (read : postfixOperator.read text index = .ok (sign, index + 1)) :
      Derives text (.applied .postfixed left) index ⟨signLabel sign, 1, [left]⟩
  | counted {index length : Nat} {left : Outline Label} {opening closing : String}
      {least most : Option Nat} (opens : (symbol "\x7b").read text index = .ok (opening, index + 1))
      (bounded : Bounded text (index + 1) least most length)
      (closes : (symbol "\x7d").read text (index + 1 + length) =
        .ok (closing, index + 1 + length + 1))
      (accepted : Accepted least most) :
      Derives text (.applied .counted left) index ⟨.counted least most, 1 + length + 1, [left]⟩
  | last {power index : Nat} {left refused : Outline Label}
      (operator : Derives text (.goal (.operator power left)) index refused)
      (isError : isError refused.label = true) (idle : refused.length = 0) :
      Derives text (.rest power left) index ⟨left.label, 0, left.children⟩
  | further {power index : Nat} {left next last : Outline Label}
      (operator : Derives text (.goal (.operator power left)) index next)
      (noError : isError next.label = false) (moves : 0 < next.length)
      (rest : Derives text (.rest power next) (index + next.length) last) :
      Derives text (.rest power left) index
        ⟨last.label, next.length + last.length, last.children⟩
  | noItem {index : Nat} (closes : ((symbol "]").read text index).toBool = true) :
      Derives text .items index ⟨.charClass, 0, []⟩
  | item {index : Nat} {item others : Outline Label}
      (goesOn : ((symbol "]").read text index).toBool = false)
      (classItem : Derives text (.goal .classItem) index item)
      (noError : isError item.label = false) (moves : 0 < item.length)
      (rest : Derives text .items (index + item.length) others) :
      Derives text .items index ⟨.charClass, item.length + others.length, item :: others.children⟩
  | char {index length : Nat} {only : Char}
      (read : classChar.read text index = .ok (only, index + length))
      (noRange : ((symbol "-").read text (index + length)).toBool = false) :
      Derives text (.goal .classItem) index ⟨.literal [only], length, []⟩
  | range {index length length' : Nat} {first last : Char} {dash : String}
      (read : classChar.read text index = .ok (first, index + length))
      (isRange : (symbol "-").read text (index + length) = .ok (dash, index + length + 1))
      (read' : classChar.read text (index + length + 1) =
        .ok (last, index + length + 1 + length'))
      (ordered : ¬last < first) :
      Derives text (.goal .classItem) index ⟨.range first last, length + 1 + length', []⟩

/-! ## Uniqueness -/

theorem Counts.unique {written : String} {count count' : Option Nat} (counts : Counts written count)
    (counts' : Counts written count') : count = count' := by
  cases counts with
  | none isEmpty =>
      cases counts' with
      | none isEmpty' => rfl
      | some notEmpty' read' =>
          rw [isEmpty] at notEmpty'
          cases notEmpty'
  | some notEmpty read =>
      cases counts' with
      | none isEmpty' =>
          rw [isEmpty'] at notEmpty
          cases notEmpty
      | some notEmpty' read' => rw [Except.ok.inj (read.symm.trans read')]

/-- A token reads one value, up to one index. -/
theorem read_unique {α : Type} {token : Token α} {text : List Char} {index length length' : Nat}
    {value value' : α} (read : token.read text index = .ok (value, index + length))
    (read' : token.read text index = .ok (value', index + length')) :
    value = value' ∧ length = length' := by
  have same := Except.ok.inj (read.symm.trans read')
  exact ⟨congrArg Prod.fst same, Nat.add_left_cancel (congrArg Prod.snd same)⟩

theorem toBool_of_read {α : Type} {token : Token α} {text : List Char} {index : Nat}
    {answer : α × Nat} (read : token.read text index = .ok answer) :
    (token.read text index).toBool = true := by
  rw [read]
  rfl

theorem Bounded.unique {text : List Char} {index length length' : Nat}
    {least most least' most' : Option Nat} (bounded : Bounded text index least most length)
    (bounded' : Bounded text index least' most' length') :
    least = least' ∧ most = most' ∧ length = length' := by
  cases bounded with
  | exactly read counts single =>
      cases bounded' with
      | exactly read' counts' single' =>
          rcases read_unique read read' with ⟨rfl, rfl⟩
          cases counts.unique counts'
          exact ⟨rfl, rfl, rfl⟩
      | between read' counts' several' _ _ =>
          rcases read_unique read read' with ⟨rfl, rfl⟩
          rw [toBool_of_read several'] at single
          cases single
  | between read counts several read₂ counts₂ =>
      cases bounded' with
      | exactly read' counts' single' =>
          rcases read_unique read read' with ⟨rfl, rfl⟩
          rw [toBool_of_read several] at single'
          cases single'
      | between read' counts' several' read₂' counts₂' =>
          rcases read_unique read read' with ⟨rfl, rfl⟩
          rcases read_unique read₂ read₂' with ⟨rfl, rfl⟩
          cases counts.unique counts'
          cases counts₂.unique counts₂'
          exact ⟨rfl, rfl, rfl⟩

namespace Derives

variable {text : List Char} {task : Task} {index : Nat} {outline outline' : Outline Label}

/-- At most one outline is found. -/
theorem unique (derives : Derives text task index outline)
    (derives' : Derives text task index outline') : outline = outline' := by
  induction derives generalizing outline' with
  | pattern operand noError rest operandHypothesis restHypothesis =>
      cases derives' with
      | pattern operand' noError' rest' =>
          cases operandHypothesis operand'
          rw [restHypothesis rest']
  | group opens pattern noError closes inductionHypothesis =>
      cases derives' with
      | group opens' pattern' noError' closes' => rw [inductionHypothesis pattern']
      | charClass noGroup' => cases (toBool_of_read opens).symm.trans noGroup'
      | literal noGroup' => cases (toBool_of_read opens).symm.trans noGroup'
  | charClass noGroup opens items closes inductionHypothesis =>
      cases derives' with
      | group opens' => cases (toBool_of_read opens').symm.trans noGroup
      | charClass noGroup' opens' items' closes' => rw [inductionHypothesis items']
      | literal noGroup' noClass' => cases (toBool_of_read opens).symm.trans noClass'
  | literal noGroup noClass read =>
      cases derives' with
      | group opens' => cases (toBool_of_read opens').symm.trans noGroup
      | charClass noGroup' opens' => cases (toBool_of_read opens').symm.trans noClass
      | literal noGroup' noClass' read' =>
          rcases read_unique read read' with ⟨rfl, rfl⟩
          rfl
  | noOperator none =>
      cases derives' with
      | noOperator none' => rfl
      | loose found' isLoose' => cases none.symm.trans found'
      | operator found' isTight' applied' => cases none.symm.trans found'
  | loose found isLoose =>
      cases derives' with
      | noOperator none' => cases found.symm.trans none'
      | loose found' isLoose' => rfl
      | operator found' isTight' applied' =>
          cases found.symm.trans found'
          exact absurd isTight' (Nat.not_lt_of_le isLoose)
  | operator found isTight applied inductionHypothesis =>
      cases derives' with
      | noOperator none' => cases found.symm.trans none'
      | loose found' isLoose' =>
          cases found.symm.trans found'
          exact absurd isTight (Nat.not_lt_of_le isLoose')
      | operator found' isTight' applied' =>
          cases found.symm.trans found'
          exact inductionHypothesis applied'
  | union read operand inductionHypothesis =>
      cases derives' with
      | union read' operand' => rw [inductionHypothesis operand']
  | concat operand inductionHypothesis =>
      cases derives' with
      | concat operand' => rw [inductionHypothesis operand']
  | postfixed read =>
      cases derives' with
      | postfixed read' => rw [(read_unique read read').1]
  | counted opens bounded closes accepted =>
      cases derives' with
      | counted opens' bounded' closes' accepted' =>
          rcases bounded.unique bounded' with ⟨rfl, rfl, rfl⟩
          rfl
  | last operator isError idle inductionHypothesis =>
      cases derives' with
      | last operator' isError' idle' => rfl
      | further operator' noError' moves' rest' =>
          cases inductionHypothesis operator'
          cases isError.symm.trans noError'
  | further operator noError moves rest operatorHypothesis restHypothesis =>
      cases derives' with
      | last operator' isError' idle' =>
          cases operatorHypothesis operator'
          cases noError.symm.trans isError'
      | further operator' noError' moves' rest' =>
          cases operatorHypothesis operator'
          rw [restHypothesis rest']
  | noItem closes =>
      cases derives' with
      | noItem closes' => rfl
      | item goesOn' => cases closes.symm.trans goesOn'
  | item goesOn classItem noError moves rest itemHypothesis restHypothesis =>
      cases derives' with
      | noItem closes' => cases goesOn.symm.trans closes'
      | item goesOn' classItem' noError' moves' rest' =>
          cases itemHypothesis classItem'
          rw [restHypothesis rest']
  | char read noRange =>
      cases derives' with
      | char read' noRange' =>
          rcases read_unique read read' with ⟨rfl, rfl⟩
          rfl
      | range read' isRange' =>
          rcases read_unique read read' with ⟨rfl, rfl⟩
          cases (toBool_of_read isRange').symm.trans noRange
  | range read isRange read₂ ordered =>
      cases derives' with
      | char read' noRange' =>
          rcases read_unique read read' with ⟨rfl, rfl⟩
          cases (toBool_of_read isRange).symm.trans noRange'
      | range read' isRange' read₂' ordered' =>
          rcases read_unique read read' with ⟨rfl, rfl⟩
          rcases read_unique read₂ read₂' with ⟨rfl, rfl⟩
          rfl

end Derives

end Pattern

end Reparse
