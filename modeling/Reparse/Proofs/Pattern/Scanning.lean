import Reparse.Pattern.Matcher
import Reparse.Proofs.Lexing.Tokens

namespace Reparse

/-!
# Matching over a text

A token that matches a pattern reads the text over again once the matcher has
found where the match ends.  So it yields the characters in between, and leaves
nothing of the way in which the matcher went back and forth.
-/

namespace Pattern

namespace Scanning

/-- Do what the matcher asks for over a list of characters, at an index. -/
def onText {α : Type} (text : List Char) : Scanning α → Nat → α × Nat
  | .nextChar, index =>
    match text[index]? with
    | some char => (some char, index + 1)
    | none => (none, index)
  | .position, index => (index, index)
  | .seek target, _ => ((), min target text.length)

end Scanning

/-- Run the matcher over a list of characters. -/
def Scan.runOver {α : Type} (scan : Scan α) (text : List Char) (index : Nat) : α × Nat :=
  Program.run (Scanning.onText text) (Token.roundsOver text) scan index

variable {text : List Char} {index : Nat}

/-- A rope is scanned as its text is. -/
theorem run_scanRope (within : index ≤ text.length) {α : Type} (scan : Scan α) :
    Program.run (Reading.onText text) (Token.roundsOver text) (scan.expand scanRope) index =
        scan.runOver text index ∧ (scan.runOver text index).2 ≤ text.length := by
  have simulates : ∀ {β : Type} (scanning : Scanning β) (here there : Nat),
      here = there ∧ there ≤ text.length →
      (Program.run (Reading.onText text) (Token.roundsOver text) (scanRope scanning) here).1 =
          (scanning.onText text there).1 ∧
        (Program.run (Reading.onText text) (Token.roundsOver text) (scanRope scanning) here).2 =
            (scanning.onText text there).2 ∧ (scanning.onText text there).2 ≤ text.length := by
    rintro β scanning here _ ⟨rfl, inside⟩
    cases scanning with
    | nextChar =>
        have same : Program.run (Reading.onText text) (Token.roundsOver text) (scanRope .nextChar) here =
            Reading.onText text .nextChar here := rfl
        rw [same, Reading.onText, Scanning.onText]
        cases found : text[here]? with
        | none => exact ⟨rfl, rfl, inside⟩
        | some char => exact ⟨rfl, rfl, (List.getElem?_eq_some_iff.mp found).1⟩
    | position => exact ⟨rfl, rfl, inside⟩
    | seek position =>
        refine ⟨rfl, ?_, Nat.min_le_right _ _⟩
        have same : Program.run (Reading.onText text) (Token.roundsOver text)
            (scanRope (.seek position)) here =
            Program.run (Reading.onText text) (Token.roundsOver text)
              (if position < here then Program.perform (.back (here - position))
              else do
                let _ ← Program.perform (.next (position - here))
                return ()) here := rfl
        rw [same, Scanning.onText]
        by_cases backwards : position < here
        · rw [if_pos backwards]
          change here - (here - position) = min position text.length
          omega
        · rw [if_neg backwards]
          change min (here + (position - here)) text.length = min position text.length
          omega
  have sameRounds : ∀ here there, here = there ∧ there ≤ text.length →
      Token.roundsOver text here = Token.roundsOver text there := fun _ _ _ => rfl
  have simulated := Program.run_simulates (fun here there => here = there ∧ there ≤ text.length)
    sameRounds simulates scan index index ⟨rfl, within⟩
  rw [Program.run_expand]
  exact ⟨Prod.ext simulated.1 simulated.2.1, simulated.2.2⟩

/-- A token for a pattern yields what the matcher has passed over. -/
theorem read_token (within : index ≤ text.length) (code : Bytecode) (message : String) :
    (token code message).read text index =
      match code.matchPrefix.runOver text index with
      | (true, stop) => .ok (String.ofList ((text.drop (stop - (stop - index))).take (stop - index)),
          stop)
      | (false, _) => .error (.message message) := by
  rcases run_scanRope within code.matchPrefix with ⟨scanned, inside⟩
  have lifted : Token.runOver (ExceptT.lift (code.matchPrefix.expand scanRope)) text index =
      (.ok (code.matchPrefix.runOver text index).1, (code.matchPrefix.runOver text index).2) := by
    rw [← scanned]
    rfl
  rw [Token.read, token, Token.runOver_bind, Token.runOver_position]
  simp only
  rw [Token.runOver_bind, lifted]
  generalize code.matchPrefix.runOver text index = outcome at inside ⊢
  rcases outcome with ⟨_ | _, stop⟩
  · rfl
  · simp only [if_true]
    rw [Token.runOver_bind, Token.runOver_position]
    simp only
    rw [Token.runOver_bind, Token.runOver_back]
    simp only
    rw [Token.runOver_next]
    simp only
    congr 2
    simp only at inside
    omega

/-! ## Parts of a pattern -/

theorem runOver_bind {α β : Type} (first : Scan α) (next : α → Scan β) :
    Scan.runOver (first >>= next) text index =
      (next (first.runOver text index).1).runOver text (first.runOver text index).2 :=
  rfl

theorem runOver_seek (position : Nat) :
    (Scan.seek position).runOver text index = ((), min position text.length) :=
  rfl

theorem runOver_accept (belongs : Char → Bool) :
    (Scan.accept belongs).runOver text index =
      ((text[index]?).any belongs, if index < text.length then index + 1 else index) := by
  have unfolded : (Scan.accept belongs).runOver text index =
      Scan.runOver (match (Scanning.onText text .nextChar index).1 with
        | some char => return belongs char
        | none => return false) text (Scanning.onText text .nextChar index).2 := rfl
  rw [unfolded, Scanning.onText]
  cases found : text[index]? with
  | none =>
      rw [if_neg (Nat.not_lt_of_le (List.getElem?_eq_none_iff.mp found))]
      rfl
  | some char =>
      rw [if_pos (List.getElem?_eq_some_iff.mp found).1]
      rfl

namespace Bytecode

variable {code : Bytecode} {here : Nat}

theorem runAt_succ (fuel : Nat) :
    code.runAt (fuel + 1) here =
      match code.ops[here]? with
      | some (.char expected) => Scan.accept (· == expected)
      | some (.range first last) =>
        Scan.accept fun char => decide (first ≤ char) && decide (char ≤ last)
      | some .star => do
        Scan.repeatGreedily (runAt code fuel (here + 1))
        return true
      | some .unionStart => do
        let start ← Scan.position
        runUnion code fuel (here + 1) start
      | some .concatStart => runConcat code fuel (here + 1)
      | _ => return false :=
  rfl

theorem runAt_char (fuel : Nat) {expected : Char} (found : code.ops[here]? = some (.char expected)) :
    code.runAt (fuel + 1) here = Scan.accept (· == expected) := by
  rw [runAt_succ, found]

theorem runAt_range (fuel : Nat) {first last : Char}
    (found : code.ops[here]? = some (.range first last)) :
    code.runAt (fuel + 1) here =
      Scan.accept fun char => decide (first ≤ char) && decide (char ≤ last) := by
  rw [runAt_succ, found]

theorem runAt_star (fuel : Nat) (found : code.ops[here]? = some .star) :
    (code.runAt (fuel + 1) here).runOver text index =
      (true, ((Scan.repeatGreedily (code.runAt fuel (here + 1))).runOver text index).2) := by
  rw [runAt_succ, found]
  rfl

theorem runAt_union (fuel : Nat) (found : code.ops[here]? = some .unionStart) :
    (code.runAt (fuel + 1) here).runOver text index =
      (code.runUnion fuel (here + 1) index).runOver text index := by
  rw [runAt_succ, found]
  rfl

theorem runAt_concat (fuel : Nat) (found : code.ops[here]? = some .concatStart) :
    (code.runAt (fuel + 1) here).runOver text index =
      (code.runConcat fuel (here + 1)).runOver text index := by
  rw [runAt_succ, found]

theorem runConcat_end (fuel : Nat) (ended : code.isEnd here = true) :
    (code.runConcat (fuel + 1) here).runOver text index = (true, index) := by
  rw [runConcat, if_pos ended]
  rfl

theorem runConcat_part (fuel : Nat) (goesOn : code.isEnd here = false) :
    (code.runConcat (fuel + 1) here).runOver text index =
      if ((code.runAt fuel here).runOver text index).1 then
        (code.runConcat fuel (code.skip here)).runOver text
          ((code.runAt fuel here).runOver text index).2
      else (false, ((code.runAt fuel here).runOver text index).2) := by
  rw [runConcat, goesOn, if_neg Bool.false_ne_true, runOver_bind]
  generalize (code.runAt fuel here).runOver text index = outcome
  rcases outcome with ⟨_ | _, stop⟩ <;> rfl

theorem runUnion_end (fuel : Nat) (ended : code.isEnd here = true) :
    (code.runUnion (fuel + 1) here index).runOver text index = (false, index) := by
  rw [runUnion, if_pos ended]
  rfl

/-- A part of a union that fails is given up, and the next one is tried from the same start. -/
theorem runUnion_part (fuel : Nat) (goesOn : code.isEnd here = false)
    (within : index ≤ text.length) :
    (code.runUnion (fuel + 1) here index).runOver text index =
      if ((code.runAt fuel here).runOver text index).1 then
        (true, ((code.runAt fuel here).runOver text index).2)
      else (code.runUnion fuel (code.skip here) index).runOver text index := by
  rw [runUnion, goesOn, if_neg Bool.false_ne_true, runOver_bind]
  generalize (code.runAt fuel here).runOver text index = outcome
  rcases outcome with ⟨_ | _, stop⟩
  · simp only [Bool.false_eq_true, if_false]
    rw [runOver_bind, runOver_seek, Nat.min_eq_left within]
  · rfl

end Bytecode

end Pattern

end Reparse
