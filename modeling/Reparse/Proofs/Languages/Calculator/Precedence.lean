import Reparse.Proofs.Languages.Calculator.Expressions
import Reparse.Proofs.Languages.Calculator.Reparsing

namespace Reparse

/-!
# Expressions are parsed as they are written

The loop of an expression reads a text from left to right.  It arrives behind an
operand, and then behind one operation after the other, each time with what it
has built so far on its left.  A text that writes an expression for a floor takes
the loop from its first character to behind its last one, and there the loop has
built the expression.  This holds for any threshold up to the floor, and whatever
follows, as long as what follows does not go on with a number and has no operator
that binds tighter than one above the floor.

The argument follows the way in which the text is written.  In front of an
operator the left part has been arrived behind, since the operator binds no
tighter than what may follow it.  The right part is a node of its own with the
power of the operator as its threshold, and this threshold ends it.
-/

namespace Calculator

/-! ## Blanks around a body -/

/-- The text does not begin with a blank. -/
def NoBlank (text : List Char) : Prop := ∀ char ∈ text.head?, Text.isBlank char = false

theorem blanks_append {before text : List Char} (isBlank : IsBlank before) (begins : NoBlank text) :
    blanks (before ++ text) = before.length := by
  have none : text.takeWhile Text.isBlank = [] := List.length_eq_zero_iff.mp (blanks_eq_zero begins)
  rw [blanks, List.takeWhile_append_of_pos isBlank, none, List.append_nil]

/-- A node takes the blanks on both sides of its body. -/
theorem Derives.framed {goal : Goal} {label : Label} {children : List (Outline Label)}
    {before inner after rest : List Char} (leading : IsBlank before) (trailing : IsBlank after)
    (begins : NoBlank (inner ++ (after ++ rest))) (ends : NoBlank rest)
    (body : Derives (.body goal) (inner ++ (after ++ rest)) ⟨label, inner.length, children⟩) :
    Derives (.node goal) (before ++ (inner ++ (after ++ rest)))
      ⟨label, before.length + inner.length + after.length, children⟩ := by
  have isLeading := blanks_append leading begins
  have behind : (before ++ (inner ++ (after ++ rest))).drop (before.length + inner.length) =
      after ++ rest := by
    rw [← List.append_assoc, ← List.length_append, List.drop_left]
  have node := @Derives.node goal (before ++ (inner ++ (after ++ rest)))
    ⟨label, inner.length, children⟩
  rw [isLeading, List.drop_left] at node
  have node := node body
  rw [behind, blanks_append trailing ends] at node
  exact node

/-- Without any blanks a node is its body. -/
theorem Derives.bare {goal : Goal} {text : List Char} {content : Outline Label}
    (body : Derives (.body goal) text content) (begins : NoBlank text)
    (ends : NoBlank (text.drop content.length)) : Derives (.node goal) text content := by
  have none := blanks_eq_zero begins
  rcases content with ⟨label, length, children⟩
  have node := @Derives.node goal text ⟨label, length, children⟩
  rw [none, List.drop_zero, Nat.zero_add, blanks_eq_zero ends, Nat.add_zero] at node
  exact node body

/-! ## The loop of an expression -/

/-- The loop of an expression has read a text, in front of what is left, and has built an
outline. -/
inductive Arrives (power : Nat) : List Char → List Char → Outline Label → Prop where
  | operand {piece rest : List Char} {first : Outline Label}
      (atom : Derives (.node .atom) (piece ++ rest) first) (length : first.length = piece.length)
      (noError : isError first.label = false) : Arrives power piece rest first
  | operation {read piece rest : List Char} {left next : Outline Label}
      (before : Arrives power read (piece ++ rest) left)
      (operation : Derives (.node (.operation power left)) (piece ++ rest) next)
      (length : next.length = piece.length) (noError : isError next.label = false) :
      Arrives power (read ++ piece) rest next

namespace Arrives

variable {power : Nat} {read rest : List Char} {left : Outline Label}

/-- What the loop finds from where it is completes what the body finds. -/
theorem completes (arrives : Arrives power read rest left) {last : Outline Label}
    (further : Derives (.rest power left) rest last) :
    Derives (.body (.expression power)) (read ++ rest)
      ⟨last.label, read.length + last.length, last.children⟩ := by
  induction arrives generalizing last with
  | @operand piece rest first atom length noError =>
      rw [← length]
      refine .expression atom noError ?_
      rw [length, List.drop_left]
      exact further
  | @operation read piece rest left next before operation length noError inductionHypothesis =>
      rw [List.append_assoc, List.length_append, Nat.add_assoc, ← length]
      refine inductionHypothesis (.further operation noError ?_)
      rw [length, List.drop_left]
      exact further

/-- Where nothing binds tightly enough, the body of the expression is what was built. -/
theorem body (arrives : Arrives power read rest left) (ends : Ends power rest) :
    Derives (.body (.expression power)) (read ++ rest) ⟨left.label, read.length, left.children⟩ :=
  arrives.completes (.last ends)

/-- The node of the expression takes the blanks in front of it. -/
theorem node (arrives : Arrives power read rest left) (ends : Ends power rest) {before : List Char}
    (leading : IsBlank before) (begins : NoBlank (read ++ rest)) :
    Derives (.node (.expression power)) (before ++ (read ++ rest))
      ⟨left.label, (before ++ read).length, left.children⟩ := by
  rw [List.length_append]
  exact Derives.framed leading isBlank_nil begins (fun char found => (ends char found).1)
    (arrives.body ends)

end Arrives

/-! ## What may follow -/

/-- Neither a blank nor a digit comes first, nor an operator that binds tighter than one above
the floor. -/
structure Follows (floor : Nat) (rest : List Char) : Prop where
  ends : Ends (floor + 1) rest
  noDigit : ∀ char ∈ rest.head?, isDigit char = false

namespace Follows

variable {floor power : Nat} {rest : List Char}

theorem nil : Follows floor [] :=
  ⟨fun _ found => (Option.not_mem_none _ found).elim, fun _ found => (Option.not_mem_none _ found).elim⟩

/-- Nothing goes on behind a closing parenthesis. -/
theorem ends_closing : Ends power (')' :: rest) := by
  intro char found
  cases found
  exact ⟨by decide, fun impossible => absurd impossible (by decide)⟩

theorem closing (floor : Nat) (rest : List Char) : Follows floor (')' :: rest) := by
  refine ⟨ends_closing, fun char found => ?_⟩
  cases found
  decide

/-- An operator may follow what was written for its left side. -/
theorem operator (operator : Operator) (rest : List Char) :
    Follows (operator.power - 1) (operator.sign :: rest) := by
  refine ⟨fun char found => ?_, fun char found => ?_⟩
  · cases found
    refine ⟨operator.isBlank_sign, fun _ => ?_⟩
    exact Nat.le_of_eq (Nat.sub_add_cancel operator.power_pos).symm
  · cases found
    exact operator.isDigit_sign

theorem noBlank (follows : Follows floor rest) : NoBlank rest :=
  fun char found => (follows.ends char found).1

theorem mono (follows : Follows floor rest) (le : floor ≤ power) : Follows power rest :=
  ⟨fun char found => ⟨(follows.ends char found).1,
    fun isOperator => Nat.le_trans ((follows.ends char found).2 isOperator) (Nat.succ_le_succ le)⟩,
    follows.noDigit⟩

/-- What may follow ends an operand of an operator above the floor. -/
theorem ends_of_lt (follows : Follows floor rest) (lt : floor < power) : Ends power rest :=
  fun char found => ⟨(follows.ends char found).1,
    fun isOperator => Nat.le_trans ((follows.ends char found).2 isOperator) lt⟩

end Follows

/-! ## Operands -/

theorem numberLabel_of_spells {digits : List Char} {value : Nat} (spells : Spells digits value) :
    numberLabel digits = .number value := by
  have small := spells.fits
  rw [← spells.value] at small
  rw [numberLabel, Numeral.readNat_eq spells.nonempty spells.areDigits small, spells.value]

/-- A digit is neither a blank nor a parenthesis. -/
theorem begins_of_isDigit {char : Char} (isOne : isDigit char = true) :
    Text.isBlank char = false ∧ char ≠ '(' := by
  have code : char.toNat = char.val.toNat := rfl
  simp only [isDigit, Bool.and_eq_true, decide_eq_true_eq, Char.le_def, UInt32.le_iff_toNat_le,
    ← code, Char.reduceVal, UInt32.reduceToNat] at isOne
  refine ⟨?_, fun same => absurd isOne (by rw [same]; decide)⟩
  rw [Bool.eq_false_iff]
  intro isBlank
  simp only [Text.isBlank, List.contains_eq_mem, Bool.or_eq_true, decide_eq_true_eq, List.mem_cons,
    List.not_mem_nil, or_false] at isBlank
  omega

/-- The digits in front of a text end where blanks follow, or no digit does. -/
theorem digits_append {digits after rest : List Char} (areDigits : ∀ char ∈ digits, char.isDigit = true)
    (trailing : IsBlank after) (noDigit : ∀ char ∈ rest.head?, isDigit char = false) :
    Calculator.digits (digits ++ (after ++ rest)) = digits := by
  have none : (after ++ rest).takeWhile isDigit = [] := by
    have noDigit : ∀ char ∈ (after ++ rest).head?, isDigit char = false := by
      cases after with
      | nil => exact noDigit
      | cons first after =>
          intro char found
          cases found
          rw [Bool.eq_false_iff]
          intro isOne
          exact absurd (trailing _ List.mem_cons_self) (by rw [(begins_of_isDigit isOne).1]; decide)
    cases same : after ++ rest with
    | nil => rfl
    | cons first others =>
        rw [same] at noDigit
        rw [List.takeWhile_cons_of_neg (by rw [noDigit first rfl]; decide)]
  have allDigits : ∀ char ∈ digits, isDigit char = true := areDigits
  rw [Calculator.digits, List.takeWhile_append_of_pos allDigits, none, List.append_nil]

/-- The loop arrives behind an atom, with the blanks that follow it. -/
theorem Arrives.of_atom (power : Nat) {floor : Nat} {label : Label} {children : List (Outline Label)}
    {inner after rest : List Char} (trailing : IsBlank after) (follows : Follows floor rest)
    (begins : NoBlank (inner ++ (after ++ rest))) (noError : isError label = false)
    (body : Derives (.body .atom) (inner ++ (after ++ rest)) ⟨label, inner.length, children⟩) :
    Arrives power (inner ++ after) rest ⟨label, (inner ++ after).length, children⟩ := by
  have node := Derives.framed isBlank_nil trailing begins follows.noBlank body
  rw [List.nil_append, List.length_nil, Nat.zero_add, ← List.length_append,
    ← List.append_assoc] at node
  exact .operand node rfl noError

theorem derives_number {digits after rest : List Char} {value : Nat} (spells : Spells digits value)
    (trailing : IsBlank after) (noDigit : ∀ char ∈ rest.head?, isDigit char = false) :
    NoBlank (digits ++ (after ++ rest)) ∧
      Derives (.body .atom) (digits ++ (after ++ rest)) ⟨.number value, digits.length, []⟩ := by
  rcases List.exists_cons_of_ne_nil spells.nonempty with ⟨first, others, isFirst⟩
  have begins := begins_of_isDigit (spells.areDigits first (isFirst ▸ List.mem_cons_self))
  have isRun := digits_append spells.areDigits trailing noDigit
  have isHead : (digits ++ (after ++ rest)).head? = some first := by rw [isFirst]; rfl
  refine ⟨fun char found => ?_, ?_⟩
  · rw [isHead] at found
    cases found
    exact begins.1
  · have found := @Derives.number (digits ++ (after ++ rest))
      (fun opening => begins.2 (Option.some.inj (isHead.symm.trans opening)))
      (isRun.symm ▸ spells.nonempty)
    rw [isRun, numberLabel_of_spells spells] at found
    exact found

theorem derives_parentheses {written rest : List Char} {label : Label}
    {children : List (Outline Label)}
    (expression : Derives (.node (.expression 0)) (written ++ ')' :: rest)
      ⟨label, written.length, children⟩) :
    Derives (.body .atom) ('(' :: (written ++ [')']) ++ rest)
      ⟨label, ('(' :: (written ++ [')'])).length, children⟩ := by
  have isText : '(' :: (written ++ [')']) ++ rest = '(' :: (written ++ ')' :: rest) := by
    rw [List.cons_append, List.append_assoc, List.singleton_append]
  have isLength : ('(' :: (written ++ [')'])).length = 1 + written.length + 1 := by
    rw [List.length_cons, List.length_append, List.length_singleton, Nat.add_comm 1]
  rw [isText, isLength]
  refine @Derives.parentheses ('(' :: (written ++ ')' :: rest)) _ rfl expression ?_
  rw [Nat.add_comm, List.drop_succ_cons, List.drop_left]
  rfl

/-- An operator that binds tightly enough goes on with its right operand. -/
theorem derives_operation {operator : Operator} {power : Nat} (left : Outline Label)
    {right : Outline Label} {written rest : List Char} (tight : power < operator.power)
    (noBlank : NoBlank rest)
    (operand : Derives (.node (.expression operator.power)) (written ++ rest) right)
    (length : right.length = written.length) :
    Derives (.node (.operation power left)) (operator.sign :: written ++ rest)
      ⟨.binary operator.sign, (operator.sign :: written).length, [left, right]⟩ := by
  refine Derives.bare ?_ (fun char found => ?_) ?_
  · rw [List.length_cons, ← length, Nat.add_comm]
    exact Derives.operation rfl operator.isOperator_sign tight operand
  · cases found
    exact operator.isBlank_sign
  · simp only [List.drop_left]
    exact noBlank

/-! ## Written expressions -/

/-- A text that writes an expression takes the loop behind it. -/
theorem Written.arrives {floor : Nat} {expression : Expression} {text : List Char}
    (written : Written floor expression text) {power : Nat} (le : power ≤ floor) {rest : List Char}
    (follows : Follows floor rest) :
    ∃ before read outline, text = before ++ read ∧ IsBlank before ∧ NoBlank (read ++ rest) ∧
      Shows outline expression ∧ Arrives power read rest outline := by
  induction written generalizing power rest with
  | @number floor value before digits after leading spells trailing =>
      rcases derives_number spells trailing follows.noDigit with ⟨begins, body⟩
      have arrives := Arrives.of_atom power trailing follows begins rfl body
      rw [← List.append_assoc] at begins
      exact ⟨before, digits ++ after, _, rfl, leading, begins, .number, arrives⟩
  | @parentheses floor inner before written after leading expression trailing inductionHypothesis =>
      rcases inductionHypothesis (Nat.le_refl 0) (Follows.closing 0 (after ++ rest)) with
        ⟨blank, read, outline, rfl, isBlank, begins, shows, arrives⟩
      have inside := arrives.node Follows.ends_closing isBlank begins
      rw [← List.append_assoc] at inside
      have noBlank : NoBlank ('(' :: (blank ++ read ++ [')']) ++ (after ++ rest)) := by
        intro char found
        cases found
        decide
      have around := Arrives.of_atom power trailing follows noBlank shows.noError
        (derives_parentheses inside)
      rw [← List.append_assoc] at noBlank
      exact ⟨before, _, _, rfl, leading, noBlank, shows.withLength _, around⟩
  | @binary floor operator left right written written' tight first second firstHypothesis
      secondHypothesis =>
      rcases secondHypothesis (Nat.le_refl _) (follows.mono (Nat.le_of_lt tight)) with
        ⟨blank, read', right', rfl, isBlank, begins', shows', arrives'⟩
      rcases firstHypothesis (Nat.le_trans le (Nat.le_sub_one_of_lt tight))
        (Follows.operator operator (blank ++ read' ++ rest)) with
        ⟨before, read, left', rfl, leading, begins, shows, arrives⟩
      have operand := arrives'.node (follows.ends_of_lt tight) isBlank begins'
      rw [← List.append_assoc] at operand
      have operation := derives_operation left' (Nat.lt_of_le_of_lt le tight) follows.noBlank operand
        rfl
      rw [← List.cons_append] at arrives begins
      rw [← List.append_assoc] at begins
      exact ⟨before, read ++ operator.sign :: (blank ++ read'), _, List.append_assoc .., leading,
        begins, .binary shows (shows'.withLength _), .operation arrives operation rfl rfl⟩

/-- A text that writes an expression has an outline of it in front of its end. -/
theorem Written.derives {expression : Expression} {text : List Char}
    (written : Written 0 expression text) : ∃ outline, Shows outline expression ∧
      outline.length = text.length ∧ Derives (.node (.expression 0)) text outline := by
  rcases written.arrives (Nat.le_refl 0) Follows.nil with
    ⟨before, read, outline, rfl, leading, begins, shows, arrives⟩
  have node := arrives.node (fun _ found => (Option.not_mem_none _ found).elim) leading begins
  rw [List.append_nil] at node
  exact ⟨_, shows.withLength _, rfl, node⟩

/-! ## Parsing -/

/-- A tree has the operators, operands and numbers of an expression and no errors, and covers
a whole text. -/
structure IsTreeOf (tree : Node) (expression : Expression) (text : String) : Prop where
  shows : Shows tree.outline expression
  noErrors : ∀ entry ∈ tree.preorder 0, isError entry.2.label = false
  length : tree.length = text.length

theorem Written.isTreeOf {expression : Expression} {text : String} {tree : Node}
    (written : Written 0 expression text.toList)
    (derives : Derives (.node (.expression 0)) text.toList tree.outline) :
    IsTreeOf tree expression text := by
  rcases written.derives with ⟨outline, shows, length, derives'⟩
  cases derives.unique derives'
  refine ⟨shows, shows.noErrors 0, ?_⟩
  rw [← Tree.outline_length, length, String.length_toList]

/-- A text that writes an expression is parsed as this expression, unless a body is refused for
its depth.  This is so for a parse of its own and for the first parse of a document. -/
theorem parsed_as_written (config : Config) (isStale : Range → Bool) {expression : Expression}
    {text : String} (written : Written 0 expression text.toList) :
    let parser : Parser vocabulary := ⟨grammar, config⟩
    let start := ({} : Store).newRope text
    let alone := parser.parse isStale grammar.startRule grammar.startState
      (start.2.positionAt start.1 0) { store := start.2 }
    let first := (Document.ofString text : Document vocabulary).parse parser
    (alone.2.refused = [] → alone.2.endless = false ∧ IsTreeOf alone.1.1 expression text) ∧
      (first.2.session.refused = [] →
        first.2.session.endless = false ∧ IsTreeOf first.1 expression text) := by
  intro parser start alone first
  have sound : (findings config.editMargin).Sound := findings_sound config.editMargin
  have starts := starts config.editMargin
  refine ⟨fun unrefused => ?_, fun unrefused => ?_⟩
  · rcases sound.parse_new config isStale (starts.asks _) (starts.registered _) text
      (starts.wanted _) with refused | ⟨ends, derives⟩
    · exact absurd unrefused refused
    · exact ⟨ends, written.isTreeOf derives⟩
  · rcases sound.parsed starts rfl text unrefused with ⟨ends, derives⟩
    exact ⟨ends, written.isTreeOf derives⟩

/-- Blanks, a number that begins with a zero, and parentheses that precedence asks for. -/
theorem parsed_as_written_difference :
    let parser : Parser vocabulary := ⟨grammar, {}⟩
    let text := " (1+2)* 3 -04"
    let product : Expression := .binary .times (.binary .plus (.number 1) (.number 2)) (.number 3)
    let expression : Expression := .binary .minus product (.number 4)
    let start := ({} : Store).newRope text
    let alone := parser.parse (fun _ => false) grammar.startRule grammar.startState
      (start.2.positionAt start.1 0) { store := start.2 }
    let first := (Document.ofString text : Document vocabulary).parse parser
    Written 0 expression text.toList ∧ alone.2.refused = [] ∧ first.2.session.refused = [] ∧
      IsTreeOf alone.1.1 expression text ∧ IsTreeOf first.1 expression text := by
  have blank : IsBlank [' '] := by decide
  have one : Spells ['1'] 1 := by decide +kernel
  have two : Spells ['2'] 2 := by decide +kernel
  have three : Spells ['3'] 3 := by decide +kernel
  have four : Spells ['0', '4'] 4 := by decide +kernel
  have sum : Written 0 (.binary .plus (.number 1) (.number 2)) ['1', '+', '2'] :=
    @Written.binary 0 .plus _ _ _ _ (by decide) (.number isBlank_nil one isBlank_nil)
      (.number isBlank_nil two isBlank_nil)
  have factor : Written 1 (.binary .plus (.number 1) (.number 2)) [' ', '(', '1', '+', '2', ')'] :=
    .parentheses blank sum isBlank_nil
  have left : Written 0 (.binary .times (.binary .plus (.number 1) (.number 2)) (.number 3))
      [' ', '(', '1', '+', '2', ')', '*', ' ', '3', ' '] :=
    @Written.binary 0 .times _ _ _ _ (by decide) factor (.number blank three blank)
  have whole := @Written.binary 0 .minus _ _ _ _ (by decide) left
    (.number isBlank_nil four isBlank_nil)
  have isText : " (1+2)* 3 -04".toList =
      [' ', '(', '1', '+', '2', ')', '*', ' ', '3', ' ', '-', '0', '4'] := by decide +kernel
  have written : Written 0 (.binary .minus (.binary .times (.binary .plus (.number 1) (.number 2))
      (.number 3)) (.number 4)) " (1+2)* 3 -04".toList := isText ▸ whole
  have done := parsed_as_written {} (fun _ => false) written
  exact ⟨written, by decide +kernel, by decide +kernel, (done.1 (by decide +kernel)).2,
    (done.2 (by decide +kernel)).2⟩

end Calculator

end Reparse
