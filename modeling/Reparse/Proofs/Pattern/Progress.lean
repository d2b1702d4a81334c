import Reparse.Proofs.Pattern.Rules
import Reparse.Proofs.Pattern.Tokens

namespace Reparse

/-!
# Operators and items consume something

The loop of a pattern goes on as long as operators are found, and the loop of a
class as long as items are.  Neither looks whether anything was consumed.  They end
because an operator that is found has consumed something, and so has an item.

Most operators begin with a sign.  Writing side by side has none, and rests on the
operand to its right.  It stands only where an operand begins, and there a pattern
consumes something, be it well formed or not.

A rule that is refused for its depth is an exception.  It consumes nothing, even
where an operand begins, and then writing side by side can be found again and again
at the same place.  Nothing is said here of parses with such a rule.
-/

namespace Pattern

/-! ## Tokens -/

theorem runOver_of_read {α : Type} {token : Token α} {text : List Char} {index last : Nat}
    {value : α} (read : token.read text index = .ok (value, last)) :
    token.runOver text index = (.ok value, last) := by
  rw [Token.read] at read
  split at read
  · next found =>
      cases read
      exact found
  · cases read

/-- A token that is read is not empty. -/
def Consumes {α : Type} (token : Token α) : Prop :=
  ∀ {text : List Char} {index last : Nat} {value : α}, index ≤ text.length →
    token.read text index = .ok (value, last) → index < last

theorem consumes_symbol {sign : String} (char : Char) (isSign : sign.toList = [char]) :
    Consumes (symbol sign) := by
  intro text index last value within read
  rw [read_symbol char isSign ⟨within, rfl⟩] at read
  split at read
  · cases read
    exact Nat.lt_succ_self index
  · cases read

theorem consumes_postfixOperator : Consumes postfixOperator := by
  intro text index last value within read
  rw [read_postfixOperator ⟨within, rfl⟩] at read
  split at read
  · split at read
    · cases read
      exact Nat.lt_succ_self index
    · cases read
  · cases read

theorem digits_forward {text : List Char} {index last : Nat} {written : String}
    (within : index ≤ text.length) (read : digits.read text index = .ok (written, last)) :
    index ≤ last := by
  have isTree : Bytecode.star (.range '0' '9') = (Instruction.star (.range '0' '9')).code := rfl
  have means : (Instruction.star (.range '0' '9')).Means (.star (.one Char.isDigit)) :=
    Instruction.means_star (Instruction.means_range '0' '9')
  rw [digits, isTree, read_token_star means within] at read
  cases read
  exact Nat.le_add_right _ _

theorem consumes_classChar : Consumes classChar := by
  intro text index last value within read
  have ran := runOver_of_read read
  rw [classChar, Token.runOver_bind, Token.runOver_nextChar] at ran
  cases found : text[index]? with
  | none =>
      rw [found] at ran
      cases ran
  | some char =>
      rw [found, if_pos (List.getElem?_eq_some_iff.mp found).1] at ran
      simp only at ran
      split at ran
      · rw [Token.runOver_bind, Token.runOver_nextChar] at ran
        simp only at ran
        split at ran
        · cases ran
          split <;> omega
        · cases ran
      · cases ran
      · cases ran
        exact Nat.lt_succ_self index
      · cases ran

/-! ### Literals -/

/-- A literal that was begun at an index has taken some characters, and knows with how many the
last one was written.  The others take one at least. -/
structure Took (index here : Nat) (state : List Char × Nat) : Prop where
  within : index + (state.1.length - 1) + state.2 ≤ here
  wide : state.1 ≠ [] → 0 < state.2

namespace Took

variable {text : List Char} {index here stop width : Nat} {char : Char} {taken : List Char}
  {state next : List Char × Nat}

theorem begin (index : Nat) : Took index index ([], 0) :=
  ⟨Nat.le_refl _, fun some => absurd rfl some⟩

theorem length_le (took : Took index here state) : index + state.1.length ≤ here := by
  have within := took.within
  by_cases isEmpty : state.1 = []
  · rw [isEmpty] at within ⊢
    exact Nat.le_of_add_right_le within
  · have wide := took.wide isEmpty
    omega

theorem add (took : Took index here state) (char : Char) (wide : 0 < width) :
    Took index (here + width) (char :: state.1, width) := by
  have length := took.length_le
  refine ⟨?_, fun _ => wide⟩
  rw [List.length_cons, Nat.add_sub_cancel]
  exact Nat.add_le_add_right length width

theorem round {goesOn : Bool} (took : Took index here state)
    (ran : (literalRound state).runOver text here = (.ok (next, goesOn), stop)) :
    Took index stop next := by
  rw [literalRound, Token.runOver_bind, Token.runOver_peek] at ran
  cases found : text[here]? with
  | none =>
      rw [found] at ran
      cases ran
      exact took
  | some char =>
      have inside := (List.getElem?_eq_some_iff.mp found).1
      rw [found] at ran
      simp only at ran
      split at ran
      · cases ran
        exact took
      · rw [Token.runOver_bind, Token.runOver_nextChar, if_pos inside] at ran
        simp only at ran
        split at ran
        · rw [Token.runOver_bind, Token.runOver_nextChar] at ran
          cases escaped : text[here + 1]? with
          | none =>
              rw [escaped] at ran
              cases ran
          | some char =>
              rw [escaped, if_pos (List.getElem?_eq_some_iff.mp escaped).1] at ran
              cases ran
              exact took.add char Nat.two_pos
        · cases ran
          exact took.add char Nat.one_pos

theorem repeated {rounds : Nat} (took : Took index here state)
    (ran : Token.repeatOver text literalRound rounds (.ok state) here = (.ok next, stop)) :
    Took index stop next := by
  induction rounds generalizing state here with
  | zero =>
      cases ran
      exact took
  | succ rounds inductionHypothesis =>
      rw [Token.repeatOver_succ] at ran
      split at ran
      · next round => exact inductionHypothesis (took.round round) ran
      · next round =>
        cases ran
        exact took.round round
      · cases ran

end Took

/-- The last of several characters may be given back.  The first is kept. -/
theorem consumes_literal : Consumes literal := by
  intro text index last value within read
  cases ran : literalRun.runOver text index with
  | mk result stop =>
  cases result with
  | error error =>
      rw [Token.read, literal, Token.runOver_bind, ran] at read
      cases read
  | ok state =>
      rcases state with ⟨taken, width⟩
      have took := (Took.begin index).repeated ((Token.runOver_loop ..).symm.trans ran)
      by_cases isEmpty : taken = []
      · subst isEmpty
        rw [Token.read, literal, Token.runOver_bind, ran] at read
        cases read
      · have some : 0 < taken.length := List.length_pos_iff.mpr isEmpty
        have length := took.length_le
        have within := took.within
        simp only at length within
        rw [read_literal_of_run ran isEmpty] at read
        split at read
        · next several =>
          cases read
          omega
        · cases read
          omega

/-! ## Goals -/

/-- An operand begins at an index. -/
def OpensOperand (text : List Char) (index : Nat) : Prop :=
  ((symbol "(").read text index).toBool = true ∨ ((symbol "[").read text index).toBool = true ∨
    (literal.read text index).toBool = true

/-- What the node of a rule is to consume.  A pattern and its operand consume something if an
operand begins here, and an operator and an item of a class unless they fail. -/
def Moves (text : List Char) (index : Nat) (rule : Rule) (outline : Outline Label) : Prop :=
  match rule with
  | .pattern | .operand => OpensOperand text index → 0 < outline.length
  | .operator | .classItem => isError outline.label = false → 0 < outline.length

theorem moves_of_pos {text : List Char} {index : Nat} {outline : Outline Label} (rule : Rule)
    (some : 0 < outline.length) : Moves text index rule outline := by
  cases rule <;> exact fun _ => some

/-- An operator or an item that has failed need not have consumed anything. -/
theorem moves_of_failed {outline : Outline Label} (failed : isError outline.label = true)
    (noError : isError outline.label = false) : 0 < outline.length := by
  rw [failed] at noError
  cases noError

/-- Side by side is written only where an operand begins. -/
theorem opensOperand_of_operatorAt {text : List Char} {index : Nat}
    (found : operatorAt text index = some .concat) : OpensOperand text index := by
  rw [operatorAt] at found
  split at found
  · cases found
  split at found
  · cases found
  split at found
  · cases found
  split at found
  · next opens => exact Or.inl opens
  split at found
  · next opens => exact Or.inr (Or.inl opens)
  split at found
  · next reads => exact Or.inr (Or.inr reads)
  · cases found

/-- A rule that stopped early has failed. -/
theorem isError_stopped (rule : Rule) (stop : Stop) :
    isError (grammar.contentOf rule (.error stop)).label = true := by
  cases stop with
  | abort reason => cases reason <;> rfl
  | panic payload => rfl
  | endless => rfl

/-- The state of a pattern is that of an operand. -/
def Invokes (rule : Rule) (state : State) : Prop :=
  rule = .pattern → ∃ power, state = .operand power

/-- The rules are to consume something of one text. -/
def progress (whole : List Char) : Findings grammar where
  Goal := Rule
  Asks _ rule state goal := rule = goal ∧ Invokes rule state
  Wanted _ text _ := text = whole
  Inner goal text index outline := text = whole ∧ Moves text index goal outline
  Whole goal text index outline := text = whole ∧ Moves text index goal outline
  margin := whole.length
  asks_mono _ asks := asks
  asks_unique asks asks' := asks.1.symm.trans asks'.1
  asks_of_sameState same asks := eq_of_sameState same ▸ asks
  skips_forward _ _ := Nat.le_refl _
  whole_of_inner := by
    intro goal text index label length children found
    rw [skipEnd_eq] at found
    rw [skipEnd_eq, skipEnd_eq, Nat.add_sub_cancel_left]
    exact found
  persists := by
    rintro goal text text' span span' outline forward forward' within within' same _ ⟨rfl, moves⟩
    rcases eq_of_surroundings forward forward' within within' (Nat.lt_succ_self _) same with
      ⟨rfl, start⟩
    exact ⟨rfl, start ▸ moves⟩

variable {site : Site} {known more : Known vocabulary} {frame : Frame vocabulary}
  {index here : Nat} {descend : Descent vocabulary} {rule : Rule} {state : State}

abbrev progressAt (site : Site) : Findings grammar := progress site.shape.text

/-! ## Steps -/

/-- A body ends where it has come to. -/
theorem ends_at {result : Except Stop (Content Label Unit)} (ended : result ≠ .error .endless)
    (grows : known.Extends more) (reaches : (progressAt site).Reaches site frame here more)
    (forward : index ≤ here)
    (moves : Moves site.shape.text index rule ⟨(grammar.contentOf rule result).label, here - index,
      Tree.outlines (grammar.contentOf rule result).children⟩) :
    (progressAt site).Ends site known rule rule index result frame := by
  refine ⟨ended, more, here - index, grows, ?_, rfl, moves⟩
  rw [Nat.add_sub_cancel' forward]
  exact reaches

/-- A body that began at an index has consumed something. -/
def Ahead (site : Site) (known : Known vocabulary) (index : Nat) (frame : Frame vocabulary) :
    Prop :=
  ∃ more here, known.Extends more ∧ index < here ∧ (progressAt site).Reaches site frame here more

/-- After something was consumed a body may end anyhow. -/
theorem Ahead.ends (ahead : Ahead site known index frame)
    {result : Except Stop (Content Label Unit)} (ended : result ≠ .error .endless) :
    (progressAt site).Ends site known rule rule index result frame := by
  rcases ahead with ⟨more, here, grows, further, reaches⟩
  exact ends_at ended grows reaches (Nat.le_of_lt further)
    (moves_of_pos rule (Nat.sub_pos_of_lt further))

/-- Skip values that are handed on leave the place as it is. -/
theorem Ahead.adopting {before after : List Unit} (ahead : Ahead site known index frame) :
    Ahead site known index { frame with before, after } := by
  rcases ahead with ⟨more, here, grows, further, reaches⟩
  exact ⟨more, here, grows, further, reaches.tells, reaches.stands⟩

/-- A body that gives up where it began has failed. -/
theorem ends_idle (reaches : (progressAt site).Reaches site frame index known) {reason : Abort}
    (idle : ∀ outline, isError outline.label = true → Moves site.shape.text index rule outline) :
    (progressAt site).Ends site known rule rule index (.error (.abort reason)) frame :=
  ends_at (by simp) (.refl known) reaches (Nat.le_refl _) (idle _ (isError_stopped rule _))

section Bodies

variable {α β : Type} {next : α → Body vocabulary β}
  {post : Except Stop β → Frame vocabulary → Prop}

/-- A token is read or not. -/
theorem yields_token (descends : (progressAt site).Descends site descend)
    (reaches : (progressAt site).Reaches site frame here known) {token : Token α}
    (holds : ∀ value last place, token.read site.shape.text here = .ok (value, last) →
      (progressAt site).Reaches site { frame with place } last known →
      Frame.Yields { frame with place } site.rope.buffer descend (next value) post)
    (stops : (token.read site.shape.text here).toBool = false → ∀ reason,
      post (.error (.abort reason)) frame) :
    frame.Yields site.rope.buffer descend (Body.lex token >>= next) post := by
  refine Frame.yields_lex descends.keeps reaches.current reaches.stands ?_
  cases read : token.read site.shape.text here with
  | error error => exact stops (by rw [read]; rfl) _
  | ok answer => exact fun place stands => holds _ _ place read ⟨reaches.tells, stands⟩

/-- A rule that is invoked moves on. -/
theorem yields_rule (descends : (progressAt site).Descends site descend)
    (reaches : (progressAt site).Reaches site frame here known) (invokes : Invokes rule state)
    (registered : grammar.Registered known state) {next : Node → Body vocabulary β}
    (holds : ∀ node session place more, known.Extends more → more node.id = some node.outline →
      Moves site.shape.text here rule node.outline →
      (progressAt site).Reaches site { frame with session, place } (here + node.outline.length)
        more →
      Frame.Yields { frame with session, place } site.rope.buffer descend (next node) post) :
    frame.Yields site.rope.buffer descend (Body.parse rule state >>= next) post := by
  refine descends.yields_parse reaches ⟨rfl, invokes⟩ registered rfl ?_
  intro node session place more grows finds
  have stands := finds.stands
  rw [← Tree.outline_length] at stands
  exact holds node session place more grows finds.named finds.whole.2 ⟨finds.tells, stands⟩

end Bodies

namespace Ahead

variable {α : Type} {next : α → RuleBody}

/-- After something was consumed a token may be read or not. -/
theorem yields_lex (ahead : Ahead site known index frame)
    (descends : (progressAt site).Descends site descend) {token : Token α}
    (forward : ∀ {here last value}, here ≤ site.shape.text.length →
      token.read site.shape.text here = .ok (value, last) → here ≤ last)
    (holds : ∀ value place, Ahead site known index { frame with place } →
      Frame.Yields { frame with place } site.rope.buffer descend (next value)
        ((progressAt site).Ends site known rule rule index)) :
    frame.Yields site.rope.buffer descend (Body.lex token >>= next)
      ((progressAt site).Ends site known rule rule index) := by
  have ahead' := ahead
  rcases ahead with ⟨more, here, grows, further, reaches⟩
  refine yields_token descends reaches (fun value last place read reaches' => ?_)
    fun _ _ => ahead'.ends (by simp)
  have behind := forward reaches.within read
  exact holds value place ⟨more, last, grows, Nat.lt_of_lt_of_le further behind, reaches'⟩

/-- A token that is not empty is read or not. -/
theorem yields_consumed (ahead : Ahead site known index frame)
    (descends : (progressAt site).Descends site descend) {token : Token α}
    (consumes : Consumes token)
    (holds : ∀ value place, Ahead site known index { frame with place } →
      Frame.Yields { frame with place } site.rope.buffer descend (next value)
        ((progressAt site).Ends site known rule rule index)) :
    frame.Yields site.rope.buffer descend (Body.lex token >>= next)
      ((progressAt site).Ends site known rule rule index) :=
  ahead.yields_lex descends (fun within read => Nat.le_of_lt (consumes within read)) holds

theorem yields_isNext (ahead : Ahead site known index frame)
    (descends : (progressAt site).Descends site descend) {token : Token α} {next : Bool → RuleBody}
    (holds : ∀ answer, frame.Yields site.rope.buffer descend (next answer)
      ((progressAt site).Ends site known rule rule index)) :
    frame.Yields site.rope.buffer descend (Body.isNext token >>= next)
      ((progressAt site).Ends site known rule rule index) := by
  rcases ahead with ⟨more, here, grows, further, reaches⟩
  exact Pattern.yields_isNext descends reaches rfl (holds _)

/-- After something was consumed a rule that is invoked may find anything. -/
theorem yields_rule (ahead : Ahead site known index frame)
    (descends : (progressAt site).Descends site descend) {rule' : Rule} {power : Nat}
    {next : Node → RuleBody}
    (holds : ∀ node session place, Ahead site known index { frame with session, place } →
      Frame.Yields { frame with session, place } site.rope.buffer descend (next node)
        ((progressAt site).Ends site known rule rule index)) :
    frame.Yields site.rope.buffer descend (Body.parse rule' (.operand power) >>= next)
      ((progressAt site).Ends site known rule rule index) := by
  rcases ahead with ⟨more, here, grows, further, reaches⟩
  refine Pattern.yields_rule descends reaches (fun _ => ⟨power, rfl⟩) (registered_operand _ _) ?_
  intro node session place more' grows' _ _ reaches'
  exact holds node session place
    ⟨more', _, grows.trans grows', Nat.lt_add_right _ further, reaches'⟩

/-- Digits may or may not be a count. -/
theorem yields_readCount (ahead : Ahead site known index frame)
    (descends : (progressAt site).Descends site descend) (written : String)
    {next : Option Nat → RuleBody}
    (holds : ∀ count, frame.Yields site.rope.buffer descend (next count)
      ((progressAt site).Ends site known rule rule index)) :
    frame.Yields site.rope.buffer descend (readCount written >>= next)
      ((progressAt site).Ends site known rule rule index) := by
  refine Frame.yields_bind descends.keeps ?_
  rw [readCount]
  split
  · exact Program.yields_pure (holds none)
  · split
    · exact Program.yields_pure (holds _)
    · exact Frame.yields_giveUp (ahead.ends (by simp))

/-- Bounds of a count are read in part or as a whole. -/
theorem yields_bounds (ahead : Ahead site known index frame)
    (descends : (progressAt site).Descends site descend) {next : Option Nat → Option Nat → RuleBody}
    (holds : ∀ least most place, Ahead site known index { frame with place } →
      Frame.Yields { frame with place } site.rope.buffer descend (next least most)
        ((progressAt site).Ends site known rule rule index)) :
    frame.Yields site.rope.buffer descend (do
      let least ← readCount (← Body.lex digits)
      if ← Body.isNext (symbol ",") then
        let _ ← Body.lex (symbol ",")
        let most ← readCount (← Body.lex digits)
        next least most
      else
        let most ← pure least
        next least most) ((progressAt site).Ends site known rule rule index) := by
  refine ahead.yields_lex descends digits_forward fun written place ahead => ?_
  refine ahead.yields_readCount descends written fun least => ?_
  refine ahead.yields_isNext descends fun answer => ?_
  cases answer with
  | false => exact holds least least place ahead
  | true =>
      refine ahead.yields_consumed descends (consumes_symbol ',' rfl) fun _ place ahead => ?_
      refine ahead.yields_lex descends digits_forward fun written place ahead => ?_
      exact ahead.yields_readCount descends written fun most => holds least most place ahead

end Ahead

/-! ## Operators -/

/-- A count consumes the brace that opens it. -/
theorem progress_countedRepetition (descends : (progressAt site).Descends site descend)
    (reaches : (progressAt site).Reaches site frame index known) (left : Node) :
    frame.Yields site.rope.buffer descend (countedRepetition left)
      ((progressAt site).Ends site known .operator .operator index) := by
  have opens : Consumes (symbol "\x7b") := consumes_symbol '\x7b' rfl
  have closes : Consumes (symbol "\x7d") := consumes_symbol '\x7d' rfl
  refine yields_token descends reaches (fun _ last place read reaches' => ?_)
    fun _ _ => ends_idle reaches fun _ => moves_of_failed
  have ahead : Ahead site known index { frame with place } :=
    ⟨known, last, .refl known, opens reaches.within read, reaches'⟩
  -- Whatever follows, the brace is consumed.
  refine ahead.yields_bounds descends fun least most place ahead => ?_
  refine ahead.yields_consumed descends closes fun _ place ahead => ?_
  split
  · exact Frame.yields_giveUp (ahead.ends (by simp))
  · split
    · exact Frame.yields_giveUp (ahead.ends (by simp))
    · split
      · exact Frame.yields_giveUp (ahead.ends (by simp))
      · exact Program.yields_pure (ahead.ends (by simp))
    · exact Program.yields_pure (ahead.ends (by simp))

/-- An operator that is found consumes its sign, or the operand to its right. -/
theorem progress_operator (descends : (progressAt site).Descends site descend)
    (reaches : (progressAt site).Reaches site frame index known)
    (registered : grammar.Registered known state) :
    frame.Yields site.rope.buffer descend (operator state)
      ((progressAt site).Ends site known .operator .operator index) := by
  have fails : ∀ reason, (progressAt site).Ends site known .operator .operator index
      (.error (.abort reason)) frame :=
    fun _ => ends_idle reaches fun _ => moves_of_failed
  cases state with
  | operand power => exact Frame.yields_giveUp (fails _)
  | operator power left =>
      refine yields_peekOperator descends reaches rfl ?_
      cases found : operatorAt site.shape.text index with
      | none => exact Frame.yields_giveUp (fails _)
      | some operator =>
          simp only
          split
          · exact Frame.yields_giveUp (fails _)
          cases operator with
          | union =>
              refine yields_token descends reaches (fun _ last place read reaches' => ?_)
                fun _ reason => fails reason
              have ahead : Ahead site known index { frame with place } :=
                ⟨known, last, .refl known, consumes_symbol '|' rfl reaches.within read, reaches'⟩
              refine ahead.yields_rule descends fun right session place ahead => ?_
              exact Program.yields_pure (ahead.ends (by simp))
          | concat =>
              refine yields_rule descends reaches (fun _ => ⟨_, rfl⟩) (registered_operand _ _) ?_
              intro right session place more grows _ moves reaches'
              have some : 0 < right.outline.length := moves (opensOperand_of_operatorAt found)
              have ahead : Ahead site known index { frame with session, place } :=
                ⟨more, _, grows, Nat.lt_add_of_pos_right some, reaches'⟩
              exact Program.yields_pure (ahead.ends (by simp))
          | postfixed =>
              refine yields_token descends reaches (fun _ last place read reaches' => ?_)
                fun _ reason => fails reason
              have ahead : Ahead site known index { frame with place } :=
                ⟨known, last, .refl known, consumes_postfixOperator reaches.within read, reaches'⟩
              exact Program.yields_pure (ahead.ends (by simp))
          | counted => exact progress_countedRepetition descends reaches left

/-! ## Operands -/

/-- An item of a class consumes its first character. -/
theorem progress_classItem (descends : (progressAt site).Descends site descend)
    (reaches : (progressAt site).Reaches site frame index known) :
    frame.Yields site.rope.buffer descend classItem
      ((progressAt site).Ends site known .classItem .classItem index) := by
  refine yields_token descends reaches (fun first last place read reaches' => ?_)
    fun _ _ => ends_idle reaches fun _ => moves_of_failed
  have ahead : Ahead site known index { frame with place } :=
    ⟨known, last, .refl known, consumes_classChar reaches.within read, reaches'⟩
  refine ahead.yields_isNext descends fun answer => ?_
  cases answer with
  | false => exact Program.yields_pure (ahead.ends (by simp))
  | true =>
      refine ahead.yields_consumed descends (consumes_symbol '-' rfl) fun _ place ahead => ?_
      refine ahead.yields_consumed descends consumes_classChar fun last place ahead => ?_
      split
      · exact Frame.yields_giveUp (ahead.ends (by simp))
      · exact Program.yields_pure (ahead.ends (by simp))

/-- A class ends behind its last item, or at an item that has failed. -/
theorem Ahead.yields_closeClass (ahead : Ahead site known index frame)
    (descends : (progressAt site).Descends site descend) (found : List Node) :
    frame.Yields site.rope.buffer descend
      (match found with
      | last :: _ =>
        if isError last.label then Body.adopt last
        else do
          let _ ← Body.lex (symbol "]")
          return ⟨.charClass, found.reverse⟩
      | [] => do
        let _ ← Body.lex (symbol "]")
        return ⟨.charClass, []⟩) ((progressAt site).Ends site known rule rule index) := by
  cases found with
  | nil =>
      refine ahead.yields_consumed descends (consumes_symbol ']' rfl) fun _ place ahead => ?_
      exact Program.yields_pure (ahead.ends (by simp))
  | cons last found =>
      simp only
      split
      · exact Frame.yields_adopt fun before after => ahead.adopting.ends (by simp)
      · refine ahead.yields_consumed descends (consumes_symbol ']' rfl) fun _ place ahead => ?_
        exact Program.yields_pure (ahead.ends (by simp))

/-- The items of a class are read one by one.  Each of them consumes something, or is the last. -/
theorem Ahead.yields_charClass (ahead : Ahead site known index frame)
    (descends : (progressAt site).Descends site descend) :
    frame.Yields site.rope.buffer descend charClass
      ((progressAt site).Ends site known rule rule index) := by
  rcases ahead with ⟨more, here, grows, further, reaches⟩
  refine Frame.yields_bind descends.keeps (Frame.yields_loop descends.keeps
    (fun _ frame measure => ∃ more here, known.Extends more ∧ index < here ∧
      (progressAt site).Reaches site frame here more ∧ measure = site.shape.text.length - here)
    ?_ ⟨more, here, grows, further, reaches, rfl⟩ reaches.lt_rounds)
  rintro found frame measure ⟨more, here, grows, further, reaches, rfl⟩
  refine Pattern.yields_isNext descends reaches rfl ?_
  have ahead : Ahead site known index frame := ⟨more, here, grows, further, reaches⟩
  split
  · exact Program.yields_pure (ahead.yields_closeClass descends found)
  refine Pattern.yields_rule descends reaches (fun _ => ⟨0, rfl⟩) (registered_operand _ _) ?_
  intro item session place more' grows' _ moves reaches'
  rw [Moves, Tree.outline_label] at moves
  have within := reaches'.within
  cases failed : isError item.label with
  | true =>
      have ahead : Ahead site known index { frame with session, place } :=
        ⟨more', _, grows.trans grows', Nat.lt_add_right _ further, reaches'⟩
      exact Program.yields_pure (ahead.yields_closeClass descends (item :: found))
  | false =>
      have some := moves failed
      refine Program.yields_pure ⟨_, ?_, more', _, grows.trans grows', Nat.lt_add_right _ further,
        reaches', rfl⟩
      omega

/-- An operand consumes the sign or the character that it begins with. -/
theorem progress_operand (descends : (progressAt site).Descends site descend)
    (reaches : (progressAt site).Reaches site frame index known) :
    frame.Yields site.rope.buffer descend operand
      ((progressAt site).Ends site known .operand .operand index) := by
  refine Pattern.yields_isNext descends reaches rfl ?_
  cases group : ((symbol "(").read site.shape.text index).toBool with
  | true =>
      refine yields_token descends reaches (fun _ last place read reaches' => ?_)
        fun missing => by rw [group] at missing; cases missing
      have ahead : Ahead site known index { frame with place } :=
        ⟨known, last, .refl known, consumes_symbol '(' rfl reaches.within read, reaches'⟩
      refine ahead.yields_rule descends fun inner session place ahead => ?_
      split
      · refine ahead.yields_consumed descends (consumes_symbol ')' rfl) fun _ place ahead => ?_
        exact Frame.yields_adopt fun before after => ahead.adopting.ends (by simp)
      · exact Frame.yields_adopt fun before after => ahead.adopting.ends (by simp)
  | false =>
      refine Pattern.yields_isNext descends reaches rfl ?_
      cases opens : ((symbol "[").read site.shape.text index).toBool with
      | true =>
          refine yields_token descends reaches (fun _ last place read reaches' => ?_)
            fun missing => by rw [opens] at missing; cases missing
          have ahead : Ahead site known index { frame with place } :=
            ⟨known, last, .refl known, consumes_symbol '[' rfl reaches.within read, reaches'⟩
          exact ahead.yields_charClass descends
      | false =>
          refine yields_token descends reaches (fun _ last place read reaches' => ?_)
            fun missing reason =>
              ends_at (by simp) (.refl known) reaches (Nat.le_refl _) fun begins => ?_
          · have ahead : Ahead site known index { frame with place } :=
              ⟨known, last, .refl known, consumes_literal reaches.within read, reaches'⟩
            exact Program.yields_pure (ahead.ends (by simp))
          · rcases begins with begins | begins | begins
            · rw [group] at begins
              cases begins
            · rw [opens] at begins
              cases begins
            · rw [missing] at begins
              cases begins

/-! ## Patterns -/

/-- A pattern consumes its first operand, and operators as long as they consume something. -/
theorem progress_pattern (descends : (progressAt site).Descends site descend)
    (reaches : (progressAt site).Reaches site frame index known) (power : Nat) :
    frame.Yields site.rope.buffer descend (pattern (.operand power))
      ((progressAt site).Ends site known .pattern .pattern index) := by
  refine Pattern.yields_rule descends reaches (fun _ => ⟨0, rfl⟩) (registered_operand _ _) ?_
  intro first session place more grows named moves reaches
  -- A pattern that ends behind its first operand, or further on.
  have behind : ∀ {here : Nat} {more : Known vocabulary} {frame : Frame vocabulary} (last : Node),
      index + first.outline.length ≤ here → known.Extends more →
      (progressAt site).Reaches site frame here more → frame.Yields site.rope.buffer descend
        (Body.adopt last) ((progressAt site).Ends site known .pattern .pattern index) := by
    intro here more frame last further grows reaches
    refine Frame.yields_adopt fun before after => ?_
    refine ends_at (by simp) grows ⟨reaches.tells, reaches.stands⟩
      (Nat.le_of_add_right_le further) fun begins => ?_
    have some := moves begins
    simp only
    omega
  split
  · exact behind first (Nat.le_refl _) grows reaches
  refine Frame.yields_bind descends.keeps (Frame.yields_loop descends.keeps
    (fun left frame measure => ∃ more here, known.Extends more ∧ more left.id = some left.outline ∧
      index + first.outline.length ≤ here ∧ (progressAt site).Reaches site frame here more ∧
      measure = site.shape.text.length - here)
    ?_ ⟨more, _, grows, named, Nat.le_refl _, reaches, rfl⟩ reaches.lt_rounds)
  rintro left frame measure ⟨more, here, grows, named, further, reaches, rfl⟩
  refine Frame.yields_mark descends.keeps ?_
  have marked : (progressAt site).Reaches site { frame with marks := frame.marks.push frame.place }
      here more := ⟨reaches.tells, reaches.stands⟩
  have registered : grammar.Registered more (.operator power left) := by
    intro other member
    cases List.mem_singleton.mp member
    exact named
  refine Pattern.yields_rule descends marked (fun impossible => by cases impossible) registered ?_
  intro next session place more' grows' named' moves' after
  rw [Moves, Tree.outline_label] at moves'
  have within := after.within
  split
  · split
    · exact Program.yields_pure (behind next (by omega) (grows.trans grows') after)
    · refine Frame.yields_restore descends.keeps (Array.getElem?_push_size ..) ?_
      refine Program.yields_pure (behind left further (grows.trans grows') ?_)
      exact ⟨after.tells, reaches.stands⟩
  · next noError =>
    have some := moves' (Bool.not_eq_true _ ▸ noError)
    refine Program.yields_pure ⟨_, ?_, more', _, grows.trans grows', named', ?_, after, rfl⟩
    · omega
    · omega

/-- The rules consume what they are to. -/
theorem progress_sound (whole : List Char) : (progress whole).Sound := by
  intro site descend descends known frame index rule state goal asks registered isWhole reaches
  rcases asks with ⟨same, invokes⟩
  have isText : site.shape.text = whole := isWhole
  clear isWhole
  subst isText same
  cases rule with
  | pattern =>
      rcases invokes rfl with ⟨power, rfl⟩
      exact progress_pattern descends reaches power
  | operand => exact progress_operand descends reaches
  | operator => exact progress_operator descends reaches registered
  | classItem => exact progress_classItem descends reaches

/-! ## Parses -/

/-- Parsing a pattern comes to an end for every text, be it well formed or not, unless a rule is
refused for its depth. -/
theorem ends_of_unrefused (text : String) (unrefused : (parse text).2.refused = []) :
    ends text = true := by
  have sound : (progress text.toList).Sound := progress_sound text.toList
  have asks : (progress text.toList).Asks (fun _ => none) .pattern (.operand 0) Rule.pattern :=
    ⟨rfl, fun _ => ⟨0, rfl⟩⟩
  have parsed := sound.parse_new {} (fun _ => false) asks (registered_operand _ _) text rfl
  simp only [ends, parse] at unrefused ⊢
  simp only at parsed
  generalize Parser.parse _ _ _ _ _ _ = reply at unrefused parsed ⊢
  rcases reply with ⟨⟨tree, stop⟩, session⟩
  rcases parsed with refused | ⟨ended, _⟩
  · exact absurd unrefused refused
  · rw [ended]
    rfl

/-- A class that is never closed, and a bar with nothing behind it. -/
example : ends "(a|" = true ∧ ends "a[b" = true := by
  decide +kernel

end Pattern

end Reparse
