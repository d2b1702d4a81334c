import Reparse.Lexing.Token
import Reparse.Proofs.Program
import Reparse.Proofs.Rope.Places
import Reparse.Proofs.Text.Beginnings

namespace Reparse

/-!
# Tokens over a text

A token only moves from place to place of the text that it was started in.  What
it answers and where it stops depends on the characters of the text and on the
index, and not on the leaves in which the text is kept.  So a token can be read
over a list of characters.
-/

/-- A place is a settled one of a text. -/
def Shape.IsPlace (shape : Shape) (place : Place) : Prop := ∃ index, shape.Stands place index

theorem Buffer.Current.isPlace_locate {buffer : Buffer} {shape : Shape}
    (current : buffer.Current shape) {index : Nat} (within : index ≤ shape.text.length) :
    shape.IsPlace (buffer.locate shape.root index) :=
  ⟨index, current.shown.stands_locate within⟩

/-! ## Tokens -/

section Tokens

variable {buffer : Buffer} {shape : Shape} {α : Type}

theorem Reading.isPlace_handle (current : buffer.Current shape) (reading : Reading α)
    {place : Place} (isPlace : shape.IsPlace place) :
    shape.IsPlace (reading.handle buffer place).2 := by
  rcases isPlace with ⟨index, stands⟩
  have walk : ∀ count, shape.IsPlace (buffer.forward place count).2 := by
    intro count
    rw [current.forward stands.means]
    exact current.isPlace_locate (Nat.min_le_right _ _)
  cases reading with
  | next count => exact walk count
  | nextChar =>
      rw [handle]
      split
      · exact walk 1
      · exact ⟨index, stands⟩
  | peek => exact ⟨index, stands⟩
  | back count =>
      have moved := current.backward stands.means count
      rw [handle, moved]
      exact current.isPlace_locate (Nat.le_trans (Nat.sub_le _ _) stands.means.le_length)
  | position => exact ⟨index, stands⟩

namespace Token

/-- Whatever every reading preserves is preserved by a token that yields a value. -/
theorem lex_preserves {good : Place → Prop}
    (preserves : ∀ {β : Type} (reading : Reading β) (place : Place), good place →
      good (reading.handle buffer place).2)
    {token : Token α} {place stop : Place} {value : α} (holds : good place)
    (lexed : token.lex buffer place = .ok (value, stop)) : good stop := by
  have after : good (Program.run (Reading.handle buffer) buffer.roundsFrom token.run place).2 :=
    Program.run_preserves good preserves token.run place holds
  rw [lex] at lexed
  split at lexed
  · next found =>
      cases lexed
      rw [found] at after
      exact after
  · cases lexed

theorem findSome?_preserves {good : Place → Prop}
    (preserves : ∀ {β : Type} (reading : Reading β) (place : Place), good place →
      good (reading.handle buffer place).2)
    {tokens : List (Token α)} {place stop : Place} {value : α} (holds : good place)
    (found : tokens.findSome? (fun token => (token.lex buffer place).toOption) = some (value, stop)) :
    good stop := by
  rcases List.exists_of_findSome?_eq_some found with ⟨token, _, lexed⟩
  cases result : token.lex buffer place with
  | error error =>
      rw [result] at lexed
      cases lexed
  | ok answer =>
      rw [result] at lexed
      cases lexed
      exact lex_preserves preserves holds result

theorem lexFirst_preserves {good : Place → Prop}
    (preserves : ∀ {β : Type} (reading : Reading β) (place : Place), good place →
      good (reading.handle buffer place).2)
    {tokens : List (Token α)} {place stop : Place} {value : α} {message : String} (holds : good place)
    (lexed : lexFirst tokens buffer place message = .ok (value, stop)) : good stop := by
  rw [lexFirst] at lexed
  split at lexed
  · next found =>
      cases lexed
      exact findSome?_preserves preserves holds found
  · cases lexed

theorem skipFrom_preserves {good : Place → Prop}
    (preserves : ∀ {β : Type} (reading : Reading β) (place : Place), good place →
      good (reading.handle buffer place).2)
    (tokens : List (Token α)) {place : Place} (holds : good place) :
    good (skipFrom tokens buffer place).2 := by
  rw [skipFrom]
  generalize buffer.roundsFrom place = rounds
  induction rounds generalizing place with
  | zero => exact holds
  | succ rounds inductionHypothesis =>
      rw [skipWithin]
      split
      · next found =>
          split
          · exact holds
          · exact inductionHypothesis (findSome?_preserves preserves holds found)
      · exact holds

theorem isPlace_lex (current : buffer.Current shape) {token : Token α} {place stop : Place}
    {value : α} (isPlace : shape.IsPlace place) (lexed : token.lex buffer place = .ok (value, stop)) :
    shape.IsPlace stop :=
  lex_preserves (fun reading _ => Reading.isPlace_handle current reading) isPlace lexed

theorem isPlace_lexFirst (current : buffer.Current shape) {tokens : List (Token α)}
    {place stop : Place} {value : α} {message : String} (isPlace : shape.IsPlace place)
    (lexed : lexFirst tokens buffer place message = .ok (value, stop)) : shape.IsPlace stop :=
  lexFirst_preserves (fun reading _ => Reading.isPlace_handle current reading) isPlace lexed

theorem isPlace_skipFrom (current : buffer.Current shape) (tokens : List (Token α)) {place : Place}
    (isPlace : shape.IsPlace place) : shape.IsPlace (skipFrom tokens buffer place).2 :=
  skipFrom_preserves (fun reading _ => Reading.isPlace_handle current reading) tokens isPlace

end Token

end Tokens

/-! ## Reading over characters -/

namespace Reading

/-- Do what a token asks for over a list of characters, at an index. -/
def onText {α : Type} (text : List Char) : Reading α → Nat → α × Nat
  | .next count, index =>
    (String.ofList ((text.drop index).take count), min (index + count) text.length)
  | .nextChar, index =>
    match text[index]? with
    | some char => (some char, index + 1)
    | none => (none, index)
  | .peek, index => (text[index]?, index)
  | .back count, index => ((), index - count)
  | .position, index => (index, index)

end Reading

namespace Token

variable {α : Type}

/-- How often a loop may go round in a text. -/
def roundsOver (text : List Char) (_index : Nat) : Nat := text.length + 1

/-- Run a token over a list of characters. -/
def runOver (token : Token α) (text : List Char) (index : Nat) : Except LexError α × Nat :=
  Program.run (Reading.onText text) (roundsOver text) token.run index

/-- What a token yields over a list of characters, and where it stops. -/
def read (token : Token α) (text : List Char) (index : Nat) : Except LexError (α × Nat) :=
  match token.runOver text index with
  | (.ok value, stop) => .ok (value, stop)
  | (.error error, _) => .error error

/-- Consume skip tokens from an index, for a limited number of rounds. -/
def skipOver (tokens : List (Token α)) (text : List Char) : Nat → Nat → List α × Nat
  | 0, index => ([], index)
  | rounds + 1, index =>
    match tokens.findSome? fun token => (token.read text index).toOption with
    | some (value, stop) =>
      if stop = index then ([], index)
      else
        let (more, last) := skipOver tokens text rounds stop
        (value :: more, last)
    | none => ([], index)

end Token

section Over

variable {buffer : Buffer} {shape : Shape} {α : Type}

/-- A place stands at an index. -/
theorem Reading.handle_onText (current : buffer.Current shape) (reading : Reading α) {place : Place}
    {index : Nat} (stands : shape.Stands place index) :
    (reading.handle buffer place).1 = (reading.onText shape.text index).1 ∧
      shape.Stands (reading.handle buffer place).2 (reading.onText shape.text index).2 := by
  have walk : ∀ count, shape.Stands (buffer.forward place count).2
      (min (index + count) shape.text.length) := by
    intro count
    rw [current.forward stands.means]
    exact current.shown.stands_locate (Nat.min_le_right _ _)
  have peeked := current.shown.peek stands
  cases reading with
  | next count =>
      refine ⟨?_, walk count⟩
      rw [handle, onText, current.forward stands.means]
  | nextChar =>
      rw [handle, onText, peeked]
      cases found : shape.text[index]? with
      | none => exact ⟨rfl, stands⟩
      | some char =>
          have within := (List.getElem?_eq_some_iff.mp found).1
          refine ⟨rfl, ?_⟩
          have moved := walk 1
          rw [Nat.min_eq_left (Nat.succ_le_of_lt within)] at moved
          exact moved
  | peek => exact ⟨peeked, stands⟩
  | back count =>
      refine ⟨rfl, ?_⟩
      rw [handle, onText, current.backward stands.means]
      exact current.shown.stands_locate (Nat.le_trans (Nat.sub_le _ _) stands.means.le_length)
  | position => exact ⟨current.indexOf stands.means, current.indexOf stands.means ▸ stands⟩

theorem Buffer.Current.roundsFrom (current : buffer.Current shape) {place : Place} {index : Nat}
    (stands : shape.Stands place index) :
    buffer.roundsFrom place = Token.roundsOver shape.text index := by
  rw [Buffer.roundsFrom, Buffer.lengthAround, current.rootOf_leaf stands.means,
    current.shown.length]
  rfl

/-- A token in a buffer does what it does over the text. -/
theorem Token.lex_eq (current : buffer.Current shape) (token : Token α) {place : Place}
    {index : Nat} (stands : shape.Stands place index) :
    match token.read shape.text index with
    | .ok (value, last) => ∃ stop, token.lex buffer place = .ok (value, stop) ∧ shape.Stands stop last
    | .error error => token.lex buffer place = .error error := by
  have simulated := Program.run_simulates shape.Stands (fun _ _ stands => current.roundsFrom stands)
    (fun reading _ _ stands => reading.handle_onText current stands) token.run place index stands
  rw [read, runOver, lex]
  generalize Program.run (Reading.handle buffer) buffer.roundsFrom token.run place = outcome
    at simulated ⊢
  generalize Program.run (Reading.onText shape.text) (roundsOver shape.text) token.run index = outcome'
    at simulated ⊢
  rcases outcome with ⟨answer, stop⟩
  rcases outcome' with ⟨answer', last⟩
  rcases simulated with ⟨same, stands'⟩
  cases same
  cases answer with
  | error error => rfl
  | ok value => exact ⟨stop, rfl, stands'⟩

/-- A position stands for one index only. -/
theorem Buffer.Current.stands_inj (current : buffer.Current shape) {place place' : Place}
    {index index' : Nat} (stands : shape.Stands place index) (stands' : shape.Stands place' index') :
    place = place' ↔ index = index' := by
  constructor
  · rintro rfl
    rw [← current.indexOf stands.means, current.indexOf stands'.means]
  · rintro rfl
    exact stands.unique stands'

theorem Token.findSome?_eq (current : buffer.Current shape) (tokens : List (Token α))
    {place : Place} {index : Nat} (stands : shape.Stands place index) :
    match tokens.findSome? fun token => (token.read shape.text index).toOption with
    | some (value, last) => ∃ stop,
        tokens.findSome? (fun token => (token.lex buffer place).toOption) = some (value, stop) ∧
          shape.Stands stop last
    | none => tokens.findSome? (fun token => (token.lex buffer place).toOption) = none := by
  induction tokens with
  | nil => rfl
  | cons token tokens inductionHypothesis =>
      have first := token.lex_eq current stands
      rw [List.findSome?_cons, List.findSome?_cons]
      cases outcome : token.read shape.text index with
      | error error =>
          rw [outcome] at first
          simp only at first
          rw [first]
          exact inductionHypothesis
      | ok answer =>
          rcases answer with ⟨value, last⟩
          rw [outcome] at first
          rcases first with ⟨stop, lexed, stands'⟩
          rw [lexed]
          exact ⟨stop, rfl, stands'⟩

/-- Skip tokens in a buffer do what they do over the text. -/
theorem Token.skipFrom_eq (current : buffer.Current shape) (tokens : List (Token α))
    {place : Place} {index : Nat} (stands : shape.Stands place index) :
    (skipFrom tokens buffer place).1 =
        (skipOver tokens shape.text (shape.text.length + 1) index).1 ∧
      shape.Stands (skipFrom tokens buffer place).2
        (skipOver tokens shape.text (shape.text.length + 1) index).2 := by
  rw [skipFrom, current.roundsFrom stands, roundsOver]
  generalize shape.text.length + 1 = rounds
  induction rounds generalizing place index with
  | zero => exact ⟨rfl, stands⟩
  | succ rounds inductionHypothesis =>
      have first := findSome?_eq current tokens stands
      rw [skipWithin, skipOver]
      cases outcome : tokens.findSome? fun token => (token.read shape.text index).toOption with
      | none =>
          rw [outcome] at first
          simp only at first
          rw [first]
          exact ⟨rfl, stands⟩
      | some answer =>
          rcases answer with ⟨value, last⟩
          rw [outcome] at first
          rcases first with ⟨stop, found, stands'⟩
          rw [found]
          simp only
          by_cases still : last = index
          · rw [if_pos ((current.stands_inj stands' stands).mpr still), if_pos still]
            exact ⟨rfl, stands⟩
          · rw [if_neg (fun same => still ((current.stands_inj stands' stands).mp same)),
              if_neg still]
            rcases inductionHypothesis stands' with ⟨same, rest⟩
            exact ⟨congrArg (value :: ·) same, rest⟩

end Over

/-! ## Tokens one by one -/

namespace Token

variable {α β : Type} (text : List Char) (index : Nat)

theorem runOver_bind (first : Token α) (next : α → Token β) :
    (first >>= next).runOver text index =
      match first.runOver text index with
      | (.ok value, stop) => (next value).runOver text stop
      | (.error error, stop) => (.error error, stop) := by
  rw [runOver, runOver, Program.run_bind]
  generalize Program.run (Reading.onText text) (roundsOver text) first.run index = outcome
  rcases outcome with ⟨_ | value, stop⟩ <;> rfl

theorem runOver_nextChar :
    nextChar.runOver text index =
      (.ok text[index]?, if index < text.length then index + 1 else index) := by
  have unfolded : nextChar.runOver text index =
      (.ok (Reading.onText text .nextChar index).1, (Reading.onText text .nextChar index).2) := rfl
  rw [unfolded, Reading.onText]
  cases found : text[index]? with
  | none => rw [if_neg (Nat.not_lt_of_le (List.getElem?_eq_none_iff.mp found))]
  | some char => rw [if_pos (List.getElem?_eq_some_iff.mp found).1]

theorem runOver_peek : peek.runOver text index = (.ok text[index]?, index) := rfl

theorem runOver_position : position.runOver text index = (.ok index, index) := rfl

theorem runOver_back (count : Nat) :
    (back count).runOver text index = (.ok (), index - count) :=
  rfl

theorem runOver_next (count : Nat) :
    (next count).runOver text index =
      (.ok (String.ofList ((text.drop index).take count)), min (index + count) text.length) :=
  rfl

/-- Go round for a limited number of times, and stop after a failure. -/
def repeatOver (body : α → Token (α × Bool)) :
    Nat → Except LexError α → Nat → Except LexError α × Nat :=
  Program.repeatStep fun answer =>
    Program.run (Reading.onText text) (roundsOver text) (Program.attempt body answer)

theorem runOver_loop (start : α) (body : α → Token (α × Bool)) :
    runOver (Program.loopUntilFailure start body) text index =
      repeatOver text body (text.length + 1) (.ok start) index :=
  rfl

theorem repeatOver_succ (body : α → Token (α × Bool)) (rounds : Nat) (answer : α) :
    repeatOver text body (rounds + 1) (.ok answer) index =
      match (body answer).runOver text index with
      | (.ok (next, true), stop) => repeatOver text body rounds (.ok next) stop
      | (.ok (next, false), stop) => (.ok next, stop)
      | (.error error, stop) => (.error error, stop) := by
  rw [repeatOver, Program.repeatStep, Program.run_attempt, runOver]
  generalize Program.run (Reading.onText text) (roundsOver text) (body answer).run index = outcome
  rcases outcome with ⟨_ | ⟨next, _ | _⟩, stop⟩ <;> rfl

theorem read_bind (first : Token α) (next : α → Token β) :
    (first >>= next).read text index =
      match first.read text index with
      | .ok (value, stop) => (next value).read text stop
      | .error error => .error error := by
  rw [read, read, runOver_bind]
  generalize first.runOver text index = outcome
  rcases outcome with ⟨_ | value, stop⟩ <;> rfl

theorem read_map (token : Token α) (change : α → β) :
    (token >>= fun value => pure (change value) : Token β).read text index =
      match token.read text index with
      | .ok (value, stop) => .ok (change value, stop)
      | .error error => .error error := by
  rw [read_bind]
  rfl

theorem read_satisfy (belongs : Char → Bool) (message : String) :
    (satisfy belongs message).read text index =
      match text[index]? with
      | some char => if belongs char then .ok (char, index + 1) else .error (.message message)
      | none => .error (.message message) := by
  rw [read, satisfy, runOver_bind, runOver_nextChar]
  cases found : text[index]? with
  | none => rfl
  | some char =>
      rw [if_pos (List.getElem?_eq_some_iff.mp found).1]
      simp only
      by_cases isOne : belongs char = true
      · rw [if_pos isOne, if_pos isOne]
        rfl
      · rw [if_neg isOne, if_neg isOne]
        rfl

theorem read_exactly (char : Char) (message : String) :
    (exactly char message).read text index =
      if (text.drop index).head? = some char then .ok (char, index + 1)
      else .error (.message message) := by
  rw [exactly, read_satisfy, List.head?_drop]
  cases found : text[index]? with
  | none => rw [if_neg (Option.some_ne_none char).symm]
  | some first =>
      by_cases same : first = char
      · subst same
        simp
      · simp [same]

/-- One round of taking characters of a class. -/
def takeRound (belongs : Char → Bool) (taken : List Char) : Token (List Char × Bool) := do
  match ← peek with
  | some char =>
    if belongs char then
      let _ ← nextChar
      return (char :: taken, true)
    else return (taken, false)
  | none => return (taken, false)

theorem runOver_takeRound (belongs : Char → Bool) (taken : List Char) :
    (takeRound belongs taken).runOver text index =
      match text[index]? with
      | some char =>
        if belongs char then (.ok (char :: taken, true), index + 1) else (.ok (taken, false), index)
      | none => (.ok (taken, false), index) := by
  rw [takeRound, runOver_bind, runOver_peek]
  cases found : text[index]? with
  | none => rfl
  | some char =>
      by_cases isOne : belongs char = true
      · simp only [isOne, if_true]
        rw [runOver_bind, runOver_nextChar, if_pos (List.getElem?_eq_some_iff.mp found).1]
        rfl
      · simp only [isOne, Bool.false_eq_true, if_false]
        rfl

theorem repeatOver_takeRound (belongs : Char → Bool) (rounds : Nat) (taken : List Char)
    (enough : text.length - index < rounds) :
    repeatOver text (takeRound belongs) rounds (.ok taken) index =
      (.ok (((text.drop index).takeWhile belongs).reverse ++ taken),
        index + Text.leading belongs (text.drop index)) := by
  induction rounds generalizing index taken with
  | zero => exact absurd enough (Nat.not_lt_zero _)
  | succ rounds inductionHypothesis =>
      rw [repeatOver_succ, runOver_takeRound]
      cases found : text[index]? with
      | none =>
          rw [List.drop_eq_nil_of_le (List.getElem?_eq_none_iff.mp found)]
          rfl
      | some char =>
          rcases List.getElem?_eq_some_iff.mp found with ⟨inside, isChar⟩
          rw [List.drop_eq_getElem_cons inside, isChar, Text.leading_cons]
          by_cases isOne : belongs char = true
          · simp only [isOne, if_true, List.takeWhile_cons_of_pos]
            rw [inductionHypothesis (index + 1) (char :: taken) (by omega), List.reverse_cons,
              List.append_assoc, List.singleton_append, Nat.add_assoc, Nat.add_comm 1]
          · simp only [isOne, Bool.false_eq_true, if_false]
            rw [List.takeWhile_cons_of_neg isOne]
            rfl

/-- A token that takes characters of a class takes all there are, and never fails. -/
theorem runOver_takeWhile (belongs : Char → Bool) :
    (takeWhile belongs).runOver text index =
      (.ok ((text.drop index).takeWhile belongs),
        index + Text.leading belongs (text.drop index)) := by
  have unfolded : takeWhile belongs =
      (Program.loopUntilFailure [] (takeRound belongs) >>= fun taken => pure taken.reverse) := rfl
  have taken := repeatOver_takeRound text index belongs (text.length + 1) [] (by omega)
  rw [unfolded, runOver_bind, runOver_loop, taken, List.append_nil]
  simp only [List.reverse_reverse]
  rfl

theorem read_takeWhile (belongs : Char → Bool) :
    (takeWhile belongs).read text index =
      .ok ((text.drop index).takeWhile belongs, index + Text.leading belongs (text.drop index)) := by
  rw [read, runOver_takeWhile]

/-- Skipping characters of a class ends behind all of them. -/
theorem skipOver_satisfy (belongs : Char → Bool) (message : String) :
    (skipOver [satisfy belongs message] text (text.length + 1) index).2 =
      index + Text.leading belongs (text.drop index) := by
  have enough : text.length - index < text.length + 1 :=
    Nat.lt_succ_of_le (Nat.sub_le _ _)
  generalize text.length + 1 = rounds at enough
  induction rounds generalizing index with
  | zero => exact absurd enough (Nat.not_lt_zero _)
  | succ rounds inductionHypothesis =>
      rw [skipOver, List.findSome?_singleton, read_satisfy]
      cases found : text[index]? with
      | none =>
          rw [List.drop_eq_nil_of_le (List.getElem?_eq_none_iff.mp found)]
          rfl
      | some char =>
          rcases List.getElem?_eq_some_iff.mp found with ⟨inside, isChar⟩
          rw [List.drop_eq_getElem_cons inside, isChar, Text.leading_cons]
          by_cases isOne : belongs char = true
          · simp only [isOne, if_true, Except.toOption, Nat.succ_ne_self, if_false]
            rw [inductionHypothesis (index + 1) (by omega)]
            omega
          · simp only [isOne, Bool.false_eq_true, if_false, Except.toOption]
            rfl

end Token

end Reparse
