import Reparse.Proofs.Pattern.Derivations
import Reparse.Proofs.Pattern.Lowering
import Reparse.Proofs.Pattern.Tokens

namespace Reparse

/-!
# Patterns that are written out

The rules read a pattern from left to right, and what they have read so far stands
to the left of what follows.  So each piece of a pattern is described by how it
takes a parse from its first character to behind its last one, whatever follows.
Meanwhile the meaning of what stands to the left grows by that of the piece.

A letter is not such a piece, as it is read together with those next to it.  A
chain of letters and other pieces is therefore described in front of any run of
letters.  The run ends where the chain begins with something else.

Sequences and alternatives are joined to those on their left, be these in
parentheses or not.  The outline is then not that of the expression, and only its
meaning is the same.
-/

namespace Pattern

/-! ## Outlines with a meaning -/

/-- An outline without errors stands for a tree that means what an expression does. -/
structure Carries (outline : Outline Label) (meaning : Meaning) : Prop where
  sound : isSound outline = true
  means : (treeOf outline).Means meaning

namespace Carries

variable {outline left right : Outline Label} {meaning prior : Meaning} {length : Nat}

theorem noError (carries : Carries outline meaning) : isError outline.label = false :=
  ((isSound_iff outline).mp carries.sound).1

/-- The length of an outline does not matter. -/
theorem withLength (carries : Carries outline meaning) (length : Nat) :
    Carries ⟨outline.label, length, outline.children⟩ meaning := by
  cases outline
  exact ⟨carries.sound, carries.means⟩

theorem areSound_joinOutlines {label : Label} (carries : Carries left prior)
    (carries' : Carries right meaning) : areSound (joinOutlines label left right) = true := by
  have single : areSound [right] = true := by
    rw [areSound, carries'.sound]
    rfl
  rw [joinOutlines]
  split
  · rw [areSound_append, ((isSound_iff left).mp carries.sound).2, single]
    rfl
  · rw [areSound, carries.sound, single]
    rfl

theorem concat (carries : Carries left prior) (carries' : Carries right meaning) (length : Nat) :
    Carries ⟨.concat, length, joinOutlines .concat left right⟩ (prior.andThen meaning) := by
  refine ⟨?_, Instruction.means_concat ?_⟩
  · rw [isSound, carries.areSound_joinOutlines carries']
    rfl
  · have last := Instruction.means_sequence_single carries'.means
    rw [joinOutlines]
    split
    · next same =>
        have isTree : treeOf left = .concat (treesOf left.children) := by
          rw [treeOf_eq, same]
          rfl
        rw [treesOf_append]
        exact Instruction.means_sequence_append
          (Instruction.sequence_of_concat (isTree ▸ carries.means)) last
    · exact Instruction.means_sequence_cons carries.means last

theorem union (carries : Carries left prior) (carries' : Carries right meaning) (length : Nat) :
    Carries ⟨.union, length, joinOutlines .union left right⟩ (prior.orElse meaning) := by
  refine ⟨?_, Instruction.means_union ?_⟩
  · rw [isSound, carries.areSound_joinOutlines carries']
    rfl
  · have last := Instruction.means_choice_single carries'.means
    rw [joinOutlines]
    split
    · next same =>
        have isTree : treeOf left = .union (treesOf left.children) := by
          rw [treeOf_eq, same]
          rfl
        rw [treesOf_append]
        exact Instruction.means_choice_append
          (Instruction.choice_of_union (isTree ▸ carries.means)) last
    · exact Instruction.means_choice_append (Instruction.means_choice_single carries.means) last

theorem literal {chars : List Char} (some : chars ≠ []) :
    Carries ⟨.literal chars, length, []⟩ (.literal chars) :=
  ⟨rfl, Instruction.means_literal some⟩

end Carries

/-! ## Steps of a parse -/

/-- A derivation of the second task completes one of the first. -/
def LeadsTo (text : List Char) (task : Task) (start : Nat) (task' : Task) (here : Nat) : Prop :=
  ∀ last, Derives text task' here last → ∃ length,
    Derives text task start ⟨last.label, length, last.children⟩ ∧
      start + length = here + last.length

variable {text rest : List Char} {index : Nat} {left outline : Outline Label} {power : Nat}

namespace LeadsTo

variable {task task' task'' : Task} {start here there : Nat}

theorem refl (text : List Char) (task : Task) (here : Nat) : LeadsTo text task here task here := by
  rintro ⟨label, length, children⟩ derives
  exact ⟨length, derives, rfl⟩

theorem trans (one : LeadsTo text task start task' here) (two : LeadsTo text task' here task'' there) :
    LeadsTo text task start task'' there := by
  intro last derives
  rcases two last derives with ⟨length, derives', stop⟩
  rcases one _ derives' with ⟨length', derives'', stop'⟩
  exact ⟨length', derives'', stop'.trans stop⟩

end LeadsTo

/-- A pattern begins with an operand. -/
theorem leadsTo_operand (power : Nat) (derives : Derives text (.goal .operand) index outline)
    (noError : isError outline.label = false) :
    LeadsTo text (.goal (.pattern power)) index (.rest power outline) (index + outline.length) :=
  fun last rest => ⟨outline.length + last.length, .pattern derives noError rest,
    (Nat.add_assoc ..).symm⟩

/-- A pattern goes on with an operator. -/
theorem leadsTo_operator (derives : Derives text (.goal (.operator power left)) index outline)
    (noError : isError outline.label = false) (moves : 0 < outline.length) :
    LeadsTo text (.rest power left) index (.rest power outline) (index + outline.length) :=
  fun last rest => ⟨outline.length + last.length, .further derives noError moves rest,
    (Nat.add_assoc ..).symm⟩

/-- No operator stands here that binds tighter than a power. -/
def Refuses (text : List Char) (index power : Nat) : Prop :=
  ∀ operator, operatorAt text index = some operator → operator.power ≤ power

/-- A pattern ends where no operator binds tight enough. -/
theorem derives_last (refuses : Refuses text index power) :
    Derives text (.rest power left) index ⟨left.label, 0, left.children⟩ := by
  cases found : operatorAt text index with
  | none => exact .last (.noOperator found) rfl rfl
  | some operator => exact .last (.loose found (refuses operator found)) rfl rfl

theorem LeadsTo.ends {start length : Nat} (leads : LeadsTo text (.goal (.pattern power)) start
      (.rest power outline) (start + length)) (refuses : Refuses text (start + length) power) :
    Derives text (.goal (.pattern power)) start ⟨outline.label, length, outline.children⟩ := by
  rcases leads _ (derives_last refuses) with ⟨length', derives, isStop⟩
  have same : length' = length := Nat.add_left_cancel isStop
  exact same ▸ derives

/-! ## What stands at an index -/

theorem toBool_symbol {sign : String} (char : Char) (isSign : sign.toList = [char])
    (remains : Remains text index rest) :
    ((symbol sign).read text index).toBool = decide (rest.head? = some char) := by
  rw [read_symbol char isSign remains]
  by_cases here : rest.head? = some char
  · rw [if_pos here, decide_eq_true here]
    rfl
  · rw [if_neg here, decide_eq_false here]
    rfl

theorem toBool_postfixOperator (remains : Remains text index rest) :
    (postfixOperator.read text index).toBool = (rest.head?).any isSign := by
  rw [read_postfixOperator remains]
  cases rest.head? with
  | none => rfl
  | some char =>
      simp only [Option.any_some]
      cases isSign char <;> rfl

/-- The operator at an index is told by the next character, unless a literal stands there. -/
theorem operatorAt_eq (remains : Remains text index rest) :
    operatorAt text index =
      if rest.head? = some '|' then some .union
      else if (rest.head?).any isSign then some .postfixed
      else if rest.head? = some '\x7b' then some .counted
      else if rest.head? = some '(' then some .concat
      else if rest.head? = some '[' then some .concat
      else if (literal.read text index).toBool then some .concat
      else none := by
  have bar : ((symbol "|").read text index).toBool = decide (rest.head? = some '|') :=
    toBool_symbol '|' rfl remains
  have brace : ((symbol "\x7b").read text index).toBool = decide (rest.head? = some '\x7b') :=
    toBool_symbol '\x7b' rfl remains
  have parenthesis : ((symbol "(").read text index).toBool = decide (rest.head? = some '(') :=
    toBool_symbol '(' rfl remains
  have bracket : ((symbol "[").read text index).toBool = decide (rest.head? = some '[') :=
    toBool_symbol '[' rfl remains
  rw [operatorAt, bar, brace, parenthesis, bracket, toBool_postfixOperator remains]
  simp only [decide_eq_true_eq]

theorem operatorAt_sign {sign : Char} (isOne : isSign sign = true)
    (remains : Remains text index (sign :: rest)) : operatorAt text index = some .postfixed := by
  have notBar : sign ≠ '|' := by
    rintro rfl
    cases isOne
  rw [operatorAt_eq remains]
  simp [isOne, notBar]

theorem ne_of_isSpecial {char other : Char} (noSpecial : isSpecial char = false)
    (special : isSpecial other = true) : char ≠ other := by
  rintro rfl
  cases noSpecial.symm.trans special

/-- Where a literal can be read its first character is not special. -/
theorem operatorAt_literal {char : Char} (noSpecial : isSpecial char = false)
    (remains : Remains text index (char :: rest))
    (read : (literal.read text index).toBool = true) : operatorAt text index = some .concat := by
  have different : ∀ other, isSpecial other = true → char ≠ other :=
    fun other => ne_of_isSpecial noSpecial
  have noSign : isSign char = false := by
    simp only [isSign, List.contains_cons, List.contains_nil, Bool.or_false, Bool.or_eq_false_iff,
      beq_eq_false_iff_ne]
    exact ⟨different '*' rfl, different '+' rfl, different '?' rfl⟩
  rw [operatorAt_eq remains]
  simp [different '|' rfl, different '\x7b' rfl, different '(' rfl, different '[' rfl, noSign, read]

/-- In front of the end, a bar or a closing parenthesis. -/
def Closes (rest : List Char) : Prop := ∀ char ∈ rest.head?, char = '|' ∨ char = ')'

theorem operatorAt_closing (noBar : ∀ char ∈ rest.head?, char = ')')
    (remains : Remains text index rest) : operatorAt text index = none := by
  have refuses := read_literal_refuses remains fun char here => by
    rw [noBar char here]
    decide
  rw [operatorAt_eq remains, refuses]
  cases rest with
  | nil => rfl
  | cons char rest =>
      cases noBar char rfl
      rfl

theorem refuses_closing (noBar : ∀ char ∈ rest.head?, char = ')')
    (remains : Remains text index rest) : Refuses text index power := by
  intro operator found
  cases (operatorAt_closing noBar remains).symm.trans found

theorem Closes.refuses (closes : Closes rest) (remains : Remains text index rest) :
    Refuses text index Operator.union.power := by
  cases rest with
  | nil => exact refuses_closing (by simp) remains
  | cons char rest =>
      rcases closes char rfl with rfl | rfl
      · intro operator found
        rw [operatorAt_eq remains, if_pos (List.head?_cons)] at found
        cases found
        exact Nat.le_refl _
      · exact refuses_closing (by simp) remains

theorem Refuses.mono {more : Nat} (refuses : Refuses text index power) (le : power ≤ more) :
    Refuses text index more :=
  fun operator found => Nat.le_trans (refuses operator found) le

/-- The operands of sequences are parsed up to the next one. -/
theorem refuses_concat (found : operatorAt text index = some .concat) :
    Refuses text index Operator.concat.power := by
  rintro operator found'
  cases found.symm.trans found'
  exact Nat.le_refl _

/-! ## Letters -/

theorem isSpecial_head {char : Char} {written : List Char} (spells : Spells isSpecial char written) :
    ∃ first others, written = first :: others ∧ isSpecial first = false := by
  cases spells with
  | plain free different => exact ⟨_, _, rfl, free⟩
  | escaped => exact ⟨_, _, rfl, isSpecial_percent⟩

theorem Spelling.head {chars written : List Char} (spelling : Spelling chars written)
    (some : chars ≠ []) : ∃ first others, written = first :: others ∧ isSpecial first = false := by
  cases spelling with
  | nil => exact absurd rfl some
  | cons spells spelling =>
      rcases isSpecial_head spells with ⟨first, others, rfl, noSpecial⟩
      exact ⟨first, _, rfl, noSpecial⟩

/-- A literal that can be read is an operand, and stands beside what is to its left. -/
theorem derives_literal {chars : List Char} {length : Nat} {char : Char}
    (noSpecial : isSpecial char = false) (remains : Remains text index (char :: rest))
    (read : literal.read text index = .ok (chars, index + length)) :
    Derives text (.goal .operand) index ⟨.literal chars, length, []⟩ ∧
      operatorAt text index = some .concat := by
  have different : ∀ other, isSpecial other = true → ¬some char = some other :=
    fun other special same => ne_of_isSpecial noSpecial special (Option.some.inj same)
  refine ⟨.literal ?_ ?_ read, operatorAt_literal noSpecial remains (toBool_of_read read)⟩
  · rw [toBool_symbol '(' rfl remains, List.head?_cons, decide_eq_false (different _ rfl)]
  · rw [toBool_symbol '[' rfl remains, List.head?_cons, decide_eq_false (different _ rfl)]

/-! ## Pieces -/

/-- A place for an operand: at the start of a pattern, or beside what stands to the left. -/
inductive Seat (power : Nat) : Task → Meaning → Prop where
  | start : Seat power (.goal (.pattern power)) .empty
  | beside {left : Outline Label} {prior : Meaning} (carries : Carries left prior) :
      Seat power (.rest power left) prior

variable {task : Task} {prior meaning meaning' : Meaning} {written written' : List Char}

/-- What is written begins a pattern, and takes it up to behind itself. -/
def Begins (text : List Char) (index : Nat) (meaning : Meaning) (stop : Nat) : Prop :=
  ∀ power < Operator.postfixed.power, ∃ outline, Carries outline meaning ∧
    LeadsTo text (.goal (.pattern power)) index (.rest power outline) stop

/-- An operand takes its place. -/
theorem Seat.operand {length : Nat} (seat : Seat power task prior)
    (loose : power < Operator.concat.power) (beside : operatorAt text index = some .concat)
    (begins : Begins text index meaning (index + length))
    (refuses : Refuses text (index + length) Operator.concat.power) (moves : 0 < length) :
    ∃ next, Carries next (prior.andThen meaning) ∧
      LeadsTo text task index (.rest power next) (index + length) := by
  cases seat with
  | start => exact begins power (Nat.lt_succ_of_lt loose)
  | beside carries =>
      rcases begins _ (Nat.lt_succ_self _) with ⟨outline, carries', leads⟩
      have joined := carries.concat (carries'.withLength length) length
      exact ⟨_, joined, leadsTo_operator (.operator beside loose (.concat (leads.ends refuses)))
        joined.noError moves⟩

/-- The length of what stands between two characters, with these. -/
theorem length_enclosed (opening closing : Char) (written : List Char) :
    (opening :: (written ++ [closing])).length = 1 + written.length + 1 := by
  rw [List.length_cons, List.length_append, List.length_singleton, Nat.add_comm 1]

/-- A piece that is not a letter by itself. -/
structure IsUnit (written : List Char) (meaning : Meaning) : Prop where
  nonempty : 0 < written.length
  ends : ∀ rest, EndsRun (written ++ rest)
  beside : ∀ {text index rest}, Remains text index (written ++ rest) →
    operatorAt text index = some .concat
  begins : ∀ {text index rest}, Remains text index (written ++ rest) →
    Begins text index meaning (index + written.length)

/-! ## Postfix operators -/

/-- A postfix operator changes the meaning of what stands to its left. -/
structure IsSuffix (written : List Char) (change : Meaning → Meaning) : Prop where
  sign : ∃ sign others, written = sign :: others ∧ isPostfix sign = true
  applies : ∀ {text index rest left prior power}, Remains text index (written ++ rest) →
    power < Operator.postfixed.power → Carries left prior → ∃ next, Carries next (change prior) ∧
      LeadsTo text (.rest power left) index (.rest power next) (index + written.length)

variable {change : Meaning → Meaning} {suffix : List Char}

theorem Begins.withSuffix {stop : Nat} (begins : Begins text index meaning stop)
    (isSuffix : IsSuffix suffix change) (remains : Remains text stop (suffix ++ rest)) :
    Begins text index (change meaning) (stop + suffix.length) := by
  intro power tight
  rcases begins power tight with ⟨outline, carries, leads⟩
  rcases isSuffix.applies remains tight carries with ⟨next, carries', leads'⟩
  exact ⟨next, carries', leads.trans leads'⟩

theorem IsUnit.withSuffix (unit : IsUnit written meaning) (isSuffix : IsSuffix suffix change) :
    IsUnit (written ++ suffix) (change meaning) where
  nonempty := by
    rw [List.length_append]
    exact Nat.add_pos_left unit.nonempty _
  ends rest := by
    rw [List.append_assoc]
    exact unit.ends (suffix ++ rest)
  beside remains := by
    rw [List.append_assoc] at remains
    exact unit.beside remains
  begins remains := by
    rw [List.append_assoc] at remains
    rw [List.length_append, ← Nat.add_assoc]
    exact (unit.begins remains).withSuffix isSuffix remains.advance

/-- A letter with a postfix operator is read apart from those in front of it. -/
theorem isUnit_letter {char : Char} (spells : Spells isSpecial char written)
    (isSuffix : IsSuffix suffix change) :
    IsUnit (written ++ suffix) (change (.literal [char])) := by
  rcases isSuffix.sign with ⟨sign, others, isSign, isOne⟩
  rcases isSpecial_head spells with ⟨first, more, isWritten, noSpecial⟩
  have operand : ∀ {text index rest}, Remains text index (written ++ (suffix ++ rest)) →
      Derives text (.goal .operand) index ⟨.literal [char], written.length, []⟩ ∧
        operatorAt text index = some .concat := by
    intro text index rest remains
    have read := remains
    rw [isSign] at read
    rw [isWritten] at remains
    exact derives_literal noSpecial remains (read_literal_raised spells isOne read)
  refine ⟨?_, fun rest => ?_, fun remains => ?_, fun {text index _} remains => ?_⟩
  · rw [isWritten]
    exact Nat.succ_pos _
  · rw [isSign, List.append_assoc]
    exact .raised spells isOne
  · rw [List.append_assoc] at remains
    exact (operand remains).2
  · rw [List.append_assoc] at remains
    have carries : Carries ⟨.literal [char], written.length, []⟩ (.literal [char]) :=
      .literal (List.cons_ne_nil _ _)
    have begins : Begins text index (.literal [char]) (index + written.length) :=
      fun power _ => ⟨_, carries, leadsTo_operand power (operand remains).1 rfl⟩
    rw [List.length_append, ← Nat.add_assoc]
    exact begins.withSuffix isSuffix remains.advance

theorem isSuffix_sign {sign : Char} (isOne : isSign sign = true)
    (carries : ∀ left prior, Carries left prior →
      Carries ⟨signLabel (String.singleton sign), 1, [left]⟩ (change prior)) :
    IsSuffix [sign] change where
  sign := by
    refine ⟨sign, [], rfl, ?_⟩
    simp only [isSign, isPostfix, List.contains_iff_mem] at isOne ⊢
    revert isOne
    simp
    grind
  applies := by
    intro text index rest left prior power remains tight carries'
    have read := read_postfixOperator remains
    simp only [List.singleton_append, List.head?_cons, isOne, if_true] at read
    have changed := carries left prior carries'
    exact ⟨_, changed, leadsTo_operator (.operator (operatorAt_sign isOne remains) tight
      (.postfixed read)) changed.noError Nat.one_pos⟩

theorem Carries.single {label : Label} {length : Nat} (carries : Carries left prior)
    (noError : isError label = false)
    (means : (treeOf left).Means prior → (assembleTree label [treeOf left]).Means meaning) :
    Carries ⟨label, length, [left]⟩ meaning := by
  refine ⟨?_, means carries.means⟩
  rw [isSound, noError, areSound, carries.sound]
  rfl

theorem isSuffix_star : IsSuffix ['*'] Meaning.star :=
  isSuffix_sign rfl fun _ _ carries => carries.single rfl Instruction.means_star

theorem isSuffix_plus : IsSuffix ['+'] fun prior => prior.andThen prior.star :=
  isSuffix_sign rfl fun _ _ carries => carries.single rfl Instruction.means_plus

theorem isSuffix_optional : IsSuffix ['?'] fun prior => prior.atMost 1 :=
  isSuffix_sign rfl fun _ _ carries => carries.single rfl Instruction.means_optional

/-! ### Counts -/

theorem Numbers.counts {count : Nat} (numbers : Numbers count written) :
    Counts (String.ofList written) (some count) := by
  have small : Nat.ofDigitChars 10 written 0 ≤ Numeral.greatestOf 64 := by
    rw [numbers.value]
    exact Nat.le_trans numbers.accepted (by decide)
  have read := Numeral.readNat_eq numbers.nonempty numbers.digits small
  rw [numbers.value] at read
  refine .some (by simp [numbers.nonempty]) ?_
  rw [String.toList_ofList]
  exact read

theorem counts_nil : Counts (String.ofList []) none := .none rfl

/-- Bounds that are written out are read, and are accepted. -/
theorem Bounds.bounded {least : Nat} {most : Option Nat} {bounds : List Char}
    (isBounds : Bounds least most bounds)
    (remains : Remains text index (bounds ++ '\x7d' :: rest)) :
    ∃ least', Bounded text index least' most bounds.length ∧ Accepted least' most ∧
      least'.getD 0 = least := by
  have comma : ∀ {index rest}, Remains text index (',' :: rest) →
      (symbol ",").read text index = .ok (",", index + 1) := by
    intro index rest remains
    exact read_symbol_here remains rfl
  have noComma : ∀ {index rest}, Remains text index ('\x7d' :: rest) →
      ((symbol ",").read text index).toBool = false := by
    intro index rest remains
    rw [toBool_symbol ',' rfl remains]
    rfl
  cases isBounds with
  | exactly numbers =>
      have read := read_digits numbers.digits (by rintro _ ⟨⟩; rfl) remains
      refine ⟨some least, .exactly read numbers.counts (noComma remains.advance), ⟨?_, ?_, ?_⟩, rfl⟩
      · simp [largerCount, numbers.accepted]
      · simp
      · rintro _ _ ⟨⟩ ⟨⟩
        exact Nat.le_refl _
  | @atLeast _ written numbers =>
      rw [List.append_assoc] at remains
      have read := read_digits numbers.digits (by rintro _ ⟨⟩; rfl) remains
      have empty : digits.read text (index + written.length + 1) =
          .ok (String.ofList [], index + written.length + 1 + 0) :=
        read_no_digits (by rintro _ ⟨⟩; rfl) remains.advance.tail
      rw [List.length_append]
      refine ⟨some least, .between read numbers.counts (comma remains.advance) empty counts_nil,
        ⟨?_, ?_, ?_⟩, rfl⟩
      · simp [largerCount, numbers.accepted]
      · simp
      · rintro _ _ _ ⟨⟩
  | atMost numbers =>
      have empty := read_no_digits (by rintro _ ⟨⟩; rfl) remains
      have read := read_digits numbers.digits (by rintro _ ⟨⟩; rfl) remains.tail
      refine ⟨none, ?_, ⟨?_, ?_, ?_⟩, rfl⟩
      · rw [List.length_cons, Nat.add_comm]
        exact .between empty counts_nil (comma remains) read numbers.counts
      · simp [largerCount, numbers.accepted]
      · simp
      · rintro _ _ ⟨⟩
  | between numbers numbers' ordered =>
      rw [List.append_assoc] at remains
      have read := read_digits numbers.digits (by rintro _ ⟨⟩; rfl) remains
      have read' := read_digits numbers'.digits (by rintro _ ⟨⟩; rfl) remains.advance.tail
      refine ⟨some least, ?_, ⟨?_, ?_, ?_⟩, rfl⟩
      · rw [List.length_append, List.length_cons, Nat.add_comm _ 1, ← Nat.add_assoc]
        exact .between read numbers.counts (comma remains.advance) read' numbers'.counts
      · simpa [largerCount] using Nat.max_le.mpr ⟨numbers.accepted, numbers'.accepted⟩
      · simp
      · rintro _ _ ⟨⟩ ⟨⟩
        exact ordered

theorem isSuffix_counted {least : Nat} {most : Option Nat} {bounds : List Char}
    (isBounds : Bounds least most bounds) :
    IsSuffix ('\x7b' :: (bounds ++ ['\x7d'])) fun prior => prior.counted least most where
  sign := ⟨'\x7b', _, rfl, rfl⟩
  applies := by
    intro text index rest left prior power remains tight carries
    have found : operatorAt text index = some .counted := by
      rw [operatorAt_eq remains]
      rfl
    have opens : (symbol "\x7b").read text index = .ok ("\x7b", index + 1) :=
      read_symbol_here remains rfl
    rw [List.cons_append, List.append_assoc] at remains
    have inside : Remains text (index + 1) (bounds ++ '\x7d' :: rest) := remains.tail
    rcases isBounds.bounded inside with ⟨least', bounded, accepted, rfl⟩
    have closes : (symbol "\x7d").read text (index + 1 + bounds.length) =
        .ok ("\x7d", index + 1 + bounds.length + 1) :=
      read_symbol_here inside.advance rfl
    have changed : Carries ⟨.counted least' most, 1 + bounds.length + 1, [left]⟩
        (prior.counted (least'.getD 0) most) := by
      refine carries.single rfl fun means => ?_
      cases most with
      | none => exact Instruction.means_atLeast means _
      | some most => exact Instruction.means_between means _ _
    have leads := leadsTo_operator (.operator found tight (.counted opens bounded closes accepted))
      changed.noError (Nat.succ_pos _)
    rw [length_enclosed]
    exact ⟨_, changed, leads⟩

/-! ## Classes -/

theorem head_ne_of_reserved {char other : Char} (spells : Spells isReservedInClass char written)
    (reserved : isReservedInClass other = true) (noPercent : other ≠ '%') :
    ¬(written ++ rest).head? = some other := by
  cases spells with
  | plain free different =>
      rintro ⟨⟩
      cases free.symm.trans reserved
  | escaped =>
      rintro ⟨⟩
      exact noPercent rfl

/-- No dash follows an item of a class that is no range. -/
theorem Listing.head_ne_dash {items : List Item} (listing : Listing items written) :
    ¬(written ++ ']' :: rest).head? = some '-' := by
  cases listing with
  | nil => rintro ⟨⟩
  | char spells listing =>
      rw [List.append_assoc]
      exact head_ne_of_reserved spells rfl (by decide)
  | range spells spells' ordered listing =>
      rw [List.append_assoc]
      exact head_ne_of_reserved spells rfl (by decide)

theorem length_pos_of_spells {reserved : Char → Bool} {char : Char}
    (spells : Spells reserved char written) : 0 < written.length := by
  cases spells <;> exact Nat.succ_pos _

/-- An item is found in front of those that were listed after it. -/
theorem found_item {item : Outline Label} {others : Outline Label} {belongs belongs' : Char → Bool}
    (goesOn : ((symbol "]").read text index).toBool = false)
    (classItem : Derives text (.goal .classItem) index item) (moves : 0 < item.length)
    (carries : Carries item (.one belongs))
    (rest : Derives text .items (index + item.length) others) (sound : areSound others.children = true)
    (means : (Instruction.Task.choice (treesOf others.children)).Means (.one belongs')) :
    ∃ found, Derives text .items index found ∧ found.length = item.length + others.length ∧
      areSound found.children = true ∧
      (Instruction.Task.choice (treesOf found.children)).Means
        (.one fun char => belongs char || belongs' char) := by
  refine ⟨_, .item goesOn classItem carries.noError moves rest, rfl, ?_, ?_⟩
  · rw [areSound, carries.sound, sound]
    rfl
  · rw [← Meaning.one_orElse_one]
    exact Instruction.means_choice_append (Instruction.means_choice_single carries.means) means

/-- The items of a class are found up to the closing bracket. -/
theorem Listing.found {items : List Item} (listing : Listing items written)
    (remains : Remains text index (written ++ ']' :: rest)) :
    ∃ found, Derives text .items index found ∧ found.length = written.length ∧
      areSound found.children = true ∧
      (Instruction.Task.choice (treesOf found.children)).Means
        (.one fun char => items.any (·.contains char)) := by
  have closing : ∀ {index rest}, Remains text index rest →
      ((symbol "]").read text index).toBool = decide (rest.head? = some ']') :=
    fun remains => toBool_symbol ']' rfl remains
  have dash : ∀ {index rest}, Remains text index rest →
      ((symbol "-").read text index).toBool = decide (rest.head? = some '-') :=
    fun remains => toBool_symbol '-' rfl remains
  -- The induction is on how the items are listed, so each item is read in front of the others.
  induction listing generalizing index with
  | nil =>
      refine ⟨_, .noItem (closing remains), rfl, rfl, ?_⟩
      have nothing : Meaning.one (fun char => ([] : List Item).any (·.contains char)) = .nowhere :=
        Meaning.one_false
      rw [nothing]
      exact Instruction.means_choice_nil
  | char spells listing inductionHypothesis =>
      rw [List.append_assoc] at remains
      rcases inductionHypothesis remains.advance with ⟨others, derives, length, sound, means⟩
      have read := read_classChar spells remains
      have goesOn := closing remains
      rw [decide_eq_false (head_ne_of_reserved spells rfl (by decide))] at goesOn
      have noRange := dash remains.advance
      rw [decide_eq_false listing.head_ne_dash] at noRange
      rw [List.length_append, ← length]
      exact found_item goesOn (.char read noRange) (length_pos_of_spells spells)
        ⟨rfl, Instruction.means_char _⟩ derives sound means
  | @range first last items written written' others spells spells' ordered listing inductionHypothesis =>
      rw [List.append_assoc, List.cons_append, List.append_assoc] at remains
      rcases inductionHypothesis remains.advance.tail.advance with
        ⟨others, derives, length, sound, means⟩
      have read := read_classChar spells remains
      have goesOn := closing remains
      rw [decide_eq_false (head_ne_of_reserved spells rfl (by decide))] at goesOn
      have isRange : (symbol "-").read text (index + written.length) =
          .ok ("-", index + written.length + 1) :=
        read_symbol_here remains.advance rfl
      have read' := read_classChar spells' remains.advance.tail
      rw [Nat.add_assoc, Nat.add_assoc, ← Nat.add_assoc _ 1] at derives
      have item := found_item goesOn (.range read isRange read' (Char.not_lt.mpr ordered))
        (Nat.add_pos_left (Nat.succ_pos _) _) ⟨rfl, Instruction.means_range first last⟩ derives sound
        means
      rw [List.length_append, List.length_cons, List.length_append, ← length]
      have sum : written.length + (written'.length + others.length + 1) =
        written.length + 1 + written'.length + others.length := by omega
      rw [sum]
      exact item

theorem isUnit_charClass {items : List Item} (listing : Listing items written) :
    IsUnit ('[' :: (written ++ [']'])) (.one fun char => items.any (·.contains char)) where
  nonempty := Nat.succ_pos _
  ends rest := .special rfl rfl
  beside remains := by
    rw [operatorAt_eq remains]
    rfl
  begins := by
    intro text index rest remains power _
    rw [List.cons_append, List.append_assoc] at remains
    have noGroup : ((symbol "(").read text index).toBool = false := by
      rw [toBool_symbol '(' rfl remains]
      rfl
    have opens : (symbol "[").read text index = .ok ("[", index + 1) :=
      read_symbol_here remains rfl
    rcases listing.found remains.tail with ⟨found, items, length, sound, means⟩
    have closes : (symbol "]").read text (index + 1 + found.length) =
        .ok ("]", index + 1 + found.length + 1) := by
      have behind := remains.tail.advance
      rw [← length] at behind
      exact read_symbol_here behind rfl
    have carries : Carries ⟨.charClass, 1 + found.length + 1, found.children⟩
        (.one fun char => _) := ⟨by rw [isSound, sound]; rfl, Instruction.means_union means⟩
    have leads := leadsTo_operand power (.charClass noGroup opens items closes)
      carries.noError
    rw [length_enclosed, ← length]
    exact ⟨_, carries, leads⟩

end Pattern

end Reparse
