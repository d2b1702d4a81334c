import Reparse.Proofs.Pattern.Meanings

namespace Reparse

/-!
# The tokens of patterns

What a token of the language of patterns reads depends on what is left of the
text at an index.  A literal takes a run of plain and escaped characters.  If a
postfix operator follows, the last of several characters is given back, with the
percent sign in front of it if there is one.
-/

namespace Pattern

/-- What is left of a text at an index. -/
structure Remains (text : List Char) (index : Nat) (rest : List Char) : Prop where
  within : index ≤ text.length
  drop : text.drop index = rest

variable {text rest : List Char} {index : Nat}

namespace Remains

theorem ofText (text : List Char) : Remains text 0 text := ⟨Nat.zero_le _, rfl⟩

theorem advance {front : List Char} (remains : Remains text index (front ++ rest)) :
    Remains text (index + front.length) rest := by
  have length := congrArg List.length remains.drop
  have within := remains.within
  rw [List.length_drop, List.length_append] at length
  refine ⟨by omega, ?_⟩
  rw [← List.drop_drop, remains.drop, List.drop_left]

theorem tail {char : Char} (remains : Remains text index (char :: rest)) :
    Remains text (index + 1) rest := by
  have step : Remains text index ([char] ++ rest) := remains
  exact step.advance

theorem head? (remains : Remains text index rest) : text[index]? = rest.head? := by
  rw [← remains.drop, List.head?_drop]

end Remains

/-! ## Tokens made of patterns -/

theorem read_symbol {sign : String} (char : Char) (isSign : sign.toList = [char])
    (remains : Remains text index rest) :
    (symbol sign).read text index =
      if rest.head? = some char then .ok (sign, index + 1)
      else .error (.message ("expected `" ++ sign ++ "`")) := by
  have isTree : Bytecode.literal sign.toList = (Instruction.char char).code := by
    rw [isSign]
    rfl
  have one : String.singleton char = sign := by rw [← String.ofList_toList (s := sign), isSign]; rfl
  rw [symbol, isTree, read_token_one (Instruction.means_char char) remains.within, remains.head?]
  cases rest with
  | nil => rfl
  | cons first rest =>
      by_cases same : first = char
      · subst same
        simp [one]
      · simp [same]

/-- A symbol is read where its character is next. -/
theorem read_symbol_here {sign : String} {char : Char} (remains : Remains text index (char :: rest))
    (isSign : sign.toList = [char]) : (symbol sign).read text index = .ok (sign, index + 1) := by
  rw [read_symbol char isSign remains]
  exact if_pos rfl

/-- The postfix operators that are one character long. -/
def isSign (char : Char) : Bool := ['*', '+', '?'].contains char

theorem read_postfixOperator (remains : Remains text index rest) :
    postfixOperator.read text index =
      match rest.head? with
      | some char =>
        if isSign char then .ok (String.singleton char, index + 1)
        else .error (.message "expected `*`, `+` or `?`")
      | none => .error (.message "expected `*`, `+` or `?`") := by
  have isTree : Bytecode.union [.char '*', .char '+', .char '?'] =
      (Instruction.union [.char '*', .char '+', .char '?']).code :=
    Instruction.union_code [.char '*', .char '+', .char '?']
  have means : (Instruction.union [.char '*', .char '+', .char '?']).Means (.one isSign) :=
    Instruction.means_anyOf ['*', '+', '?']
  have read := read_token_one means remains.within "expected `*`, `+` or `?`"
  rw [remains.head?] at read
  rw [postfixOperator, isTree]
  exact read

theorem read_digits {written : List Char} (isDigit : ∀ char ∈ written, char.isDigit = true)
    (ends : ∀ char ∈ rest.head?, char.isDigit = false)
    (remains : Remains text index (written ++ rest)) :
    digits.read text index = .ok (String.ofList written, index + written.length) := by
  have taken : (written ++ rest).takeWhile Char.isDigit = written := by
    rw [List.takeWhile_append_of_pos isDigit]
    cases rest with
    | nil => exact List.append_nil _
    | cons char rest =>
        rw [List.takeWhile_cons_of_neg (Bool.not_eq_true _ ▸ ends char rfl), List.append_nil]
  have isTree : Bytecode.star (.range '0' '9') = (Instruction.star (.range '0' '9')).code := rfl
  have means : (Instruction.star (.range '0' '9')).Means (.star (.one Char.isDigit)) :=
    Instruction.means_star (Instruction.means_range '0' '9')
  rw [digits, isTree, read_token_star means remains.within, remains.drop, taken]

theorem read_no_digits (ends : ∀ char ∈ rest.head?, char.isDigit = false)
    (remains : Remains text index rest) : digits.read text index = .ok (String.ofList [], index) :=
  read_digits (fun _ member => absurd member List.not_mem_nil) ends remains

/-! ## Literals -/

/-- A run of plain characters in front of such a text is one literal. -/
inductive EndsRun : List Char → Prop where
  | atEnd : EndsRun []
  | special {char : Char} {rest : List Char} (isOne : isSpecial char = true)
      (noPostfix : isPostfix char = false) : EndsRun (char :: rest)
  | raised {char sign : Char} {written rest : List Char} (spells : Spells isSpecial char written)
      (isOne : isPostfix sign = true) : EndsRun (written ++ sign :: rest)

/-- One round of the loop of a literal. -/
def literalRound (state : List Char × Nat) : Token ((List Char × Nat) × Bool) := do
  match ← Token.peek with
  | none => return ((state.1, state.2), false)
  | some char =>
    if isSpecial char then return ((state.1, state.2), false)
    let _ ← Token.nextChar
    if char == '%' then
      match ← Token.nextChar with
      | some escaped => return ((escaped :: state.1, 2), true)
      | none => Token.refuse danglingEscape
    else return ((char :: state.1, 1), true)

theorem literalRun_eq : literalRun = Program.loopUntilFailure ([], 0) literalRound := rfl

theorem isSpecial_percent : isSpecial '%' = false := by decide

/-- A round of the loop takes one character. -/
theorem literalRound_spells {char : Char} {written : List Char}
    (spells : Spells isSpecial char written) (remains : Remains text index (written ++ rest))
    (state : List Char × Nat) :
    (literalRound state).runOver text index =
      (.ok ((char :: state.1, written.length), true), index + written.length) := by
  have head := remains.head?
  cases spells with
  | plain free different =>
      have inside : index < text.length := (List.getElem?_eq_some_iff.mp head).1
      rw [literalRound, Token.runOver_bind, Token.runOver_peek, head]
      simp only [List.singleton_append, List.head?_cons, free, Bool.false_eq_true, if_false]
      rw [Token.runOver_bind, Token.runOver_nextChar, if_pos inside]
      simp only [beq_eq_false_iff_ne.mpr different, Bool.false_eq_true, if_false]
      rfl
  | escaped =>
      have inside : index < text.length := (List.getElem?_eq_some_iff.mp head).1
      have next : text[index + 1]? = some char := remains.tail.head?
      have inside' : index + 1 < text.length := (List.getElem?_eq_some_iff.mp next).1
      rw [literalRound, Token.runOver_bind, Token.runOver_peek, head]
      simp only [List.cons_append, List.head?_cons, isSpecial_percent, Bool.false_eq_true, if_false]
      rw [Token.runOver_bind, Token.runOver_nextChar, if_pos inside]
      simp only [beq_self_eq_true, if_true]
      rw [Token.runOver_bind, Token.runOver_nextChar, if_pos inside', next]
      rfl

/-- The loop stops in front of a special character and at the end. -/
theorem literalRound_stops (remains : Remains text index rest)
    (stops : ∀ char ∈ rest.head?, isSpecial char = true) (state : List Char × Nat) :
    (literalRound state).runOver text index = (.ok (state, false), index) := by
  have head := remains.head?
  rw [literalRound, Token.runOver_bind, Token.runOver_peek, head]
  cases rest with
  | nil => rfl
  | cons char rest =>
      simp only [List.head?_cons, stops char rfl, if_true]
      rfl

theorem repeatOver_spelling {chars written : List Char} (spelling : Spelling chars written)
    (remains : Remains text index (written ++ rest)) (state : List Char × Nat) (rounds : Nat) :
    ∃ width, Token.repeatOver text literalRound (chars.length + rounds) (.ok state) index =
      Token.repeatOver text literalRound rounds (.ok (chars.reverse ++ state.1, width))
        (index + written.length) := by
  induction spelling generalizing index state with
  | nil =>
      refine ⟨state.2, ?_⟩
      rw [List.length_nil, Nat.zero_add]
      rfl
  | @cons char chars written others spells spelling inductionHypothesis =>
      rw [List.append_assoc] at remains
      rcases inductionHypothesis remains.advance (char :: state.1, written.length) with ⟨width, same⟩
      refine ⟨width, ?_⟩
      rw [List.length_cons, Nat.add_right_comm, Token.repeatOver_succ,
        literalRound_spells spells remains]
      simp only [same, List.length_append, Nat.add_assoc, List.reverse_cons, List.append_assoc,
        List.singleton_append]

theorem Spelling.length_le {chars written : List Char} (spelling : Spelling chars written) :
    chars.length ≤ written.length := by
  induction spelling with
  | nil => exact Nat.le_refl _
  | cons spells spelling inductionHypothesis =>
      rw [List.length_cons, List.length_append]
      cases spells <;> simp only [List.length_cons, List.length_nil] <;> omega

theorem Remains.length_le {front : List Char} (remains : Remains text index (front ++ rest)) :
    index + front.length ≤ text.length :=
  remains.advance.within

/-- The loop collects all characters up to a special one or the end. -/
theorem runOver_literalRun {chars written : List Char} (spelling : Spelling chars written)
    (remains : Remains text index (written ++ rest))
    (stops : ∀ char ∈ rest.head?, isSpecial char = true) :
    ∃ width, literalRun.runOver text index =
      (.ok (chars.reverse, width), index + written.length) := by
  have enough := remains.length_le
  have fewer := spelling.length_le
  rcases repeatOver_spelling spelling remains ([], 0) (text.length - chars.length + 1) with
    ⟨width, same⟩
  refine ⟨width, ?_⟩
  have rounds : text.length + 1 = chars.length + (text.length - chars.length + 1) := by omega
  rw [literalRun_eq, Token.runOver_loop, rounds, same, Token.repeatOver_succ,
    literalRound_stops remains.advance stops, List.append_nil]

/-- In front of a postfix operator the last character is known by its width. -/
theorem runOver_literalRun_raised {chars written written' : List Char} {char sign : Char}
    (spelling : Spelling chars written) (spells : Spells isSpecial char written')
    (isOne : isSpecial sign = true)
    (remains : Remains text index (written ++ (written' ++ sign :: rest))) :
    literalRun.runOver text index =
      (.ok (char :: chars.reverse, written'.length), index + written.length + written'.length) := by
  have enough := remains.length_le
  have enough' := remains.advance.length_le
  have fewer := spelling.length_le
  have pos : 0 < written'.length := by cases spells <;> exact Nat.succ_pos _
  rcases repeatOver_spelling spelling remains ([], 0) (text.length - chars.length - 1 + 1 + 1) with
    ⟨width, same⟩
  have rounds : text.length + 1 = chars.length + (text.length - chars.length - 1 + 1 + 1) := by omega
  have stops : ∀ char ∈ (sign :: rest).head?, isSpecial char = true := by
    rintro _ ⟨⟩
    exact isOne
  rw [literalRun_eq, Token.runOver_loop, rounds, same, Token.repeatOver_succ,
    literalRound_spells spells remains.advance]
  simp only [Token.repeatOver_succ, literalRound_stops remains.advance.advance stops,
    List.append_nil]

theorem isSpecial_of_isPostfix {char : Char} (isOne : isPostfix char = true) :
    isSpecial char = true := by
  simp only [isPostfix, isSpecial, List.contains_iff_mem] at isOne ⊢
  revert isOne
  simp
  grind

/-- What a literal makes of the characters that were collected. -/
theorem read_literal_of_run {taken : List Char} {width stop : Nat}
    (ran : literalRun.runOver text index = (.ok (taken, width), stop)) (some : taken ≠ []) :
    literal.read text index =
      if 1 < taken.length ∧ (text[stop]?).any isPostfix = true then
        .ok (taken.tail.reverse, stop - width)
      else .ok (taken.reverse, stop) := by
  have notEmpty : taken.isEmpty = false := List.isEmpty_eq_false_iff.mpr some
  rw [Token.read, literal, Token.runOver_bind, ran]
  simp only [notEmpty, Bool.false_eq_true, if_false]
  rw [Token.runOver_bind, Token.runOver_peek]
  simp only [Bool.and_eq_true, decide_eq_true_eq, gt_iff_lt]
  by_cases raised : 1 < taken.length ∧ (text[stop]?).any isPostfix = true
  · rw [if_pos raised, if_pos raised, Token.runOver_bind, Token.runOver_back]
    rfl
  · rw [if_neg raised, if_neg raised]
    rfl

/-- A literal is a run of characters. -/
theorem read_literal {chars written : List Char} (spelling : Spelling chars written)
    (some : chars ≠ []) (ends : EndsRun rest) (remains : Remains text index (written ++ rest)) :
    literal.read text index = .ok (chars, index + written.length) := by
  have notEmpty : chars.reverse ≠ [] := by simpa using some
  -- Nothing is given back unless a postfix operator follows.
  have whole : (∀ char ∈ rest.head?, isSpecial char = true) → (rest.head?).any isPostfix = false →
      literal.read text index = .ok (chars, index + written.length) := by
    intro stops noPostfix
    rcases runOver_literalRun spelling remains stops with ⟨width, ran⟩
    rw [read_literal_of_run ran notEmpty, remains.advance.head?, if_neg (by simp [noPostfix]),
      List.reverse_reverse]
  cases ends with
  | atEnd => exact whole (by simp) rfl
  | special isOne noPostfix =>
      refine whole ?_ (by simpa using noPostfix)
      rintro _ ⟨⟩
      exact isOne
  | raised spells isOne =>
      have ran := runOver_literalRun_raised spelling spells (isSpecial_of_isPostfix isOne) remains
      have several : 1 < chars.length + 1 := Nat.succ_lt_succ (List.length_pos_iff.mpr some)
      have next := remains.advance.advance.head?
      rw [read_literal_of_run ran (List.cons_ne_nil _ _), next, List.length_cons, List.length_reverse,
        if_pos ⟨several, isOne⟩, Nat.add_sub_cancel, List.tail_cons, List.reverse_reverse]

/-- A single character is kept, also in front of a postfix operator. -/
theorem read_literal_raised {char sign : Char} {written : List Char}
    (spells : Spells isSpecial char written) (isOne : isPostfix sign = true)
    (remains : Remains text index (written ++ sign :: rest)) :
    literal.read text index = .ok ([char], index + written.length) := by
  have ran := runOver_literalRun_raised .nil spells (isSpecial_of_isPostfix isOne) remains
  rw [read_literal_of_run ran (List.cons_ne_nil _ _), if_neg (fun ⟨more, _⟩ => Nat.lt_irrefl 1 more)]
  rfl

/-- No literal begins with a special character. -/
theorem read_literal_refuses (remains : Remains text index rest)
    (stops : ∀ char ∈ rest.head?, isSpecial char = true) :
    literal.read text index = .error (.message "expected a literal") := by
  rcases runOver_literalRun .nil remains stops with ⟨width, ran⟩
  rw [Token.read, literal, Token.runOver_bind, ran]
  rfl

/-! ## Classes -/

theorem read_classChar {char : Char} {written : List Char}
    (spells : Spells isReservedInClass char written) (remains : Remains text index (written ++ rest)) :
    classChar.read text index = .ok (char, index + written.length) := by
  have head := remains.head?
  have inside : index < text.length := by
    cases spells <;> exact (List.getElem?_eq_some_iff.mp head).1
  rw [Token.read, classChar, Token.runOver_bind, Token.runOver_nextChar, if_pos inside, head]
  cases spells with
  | plain free different =>
      have notClosing : char ≠ ']' := by
        rintro rfl
        cases free
      simp only [List.singleton_append, List.head?_cons]
      rfl
  | escaped =>
      have next : text[index + 1]? = some char := remains.tail.head?
      have inside' : index + 1 < text.length := (List.getElem?_eq_some_iff.mp next).1
      simp only [List.cons_append, List.head?_cons]
      rw [Token.runOver_bind, Token.runOver_nextChar, if_pos inside', next]
      rfl

end Pattern

end Reparse
