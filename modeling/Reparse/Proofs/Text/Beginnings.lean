namespace Reparse

/-!
# Beginnings of texts

What a rule finds in a text is decided by the characters that the text begins with.  A
longest run of characters of a class is decided by the run and the character behind it.  Two
texts that agree so far have the same run.
-/

namespace Text

variable {belongs : Char → Bool} {text text' : List Char}

/-- How many characters of a class a text begins with. -/
def leading (belongs : Char → Bool) (text : List Char) : Nat := (text.takeWhile belongs).length

theorem leading_cons (char : Char) (text : List Char) :
    leading belongs (char :: text) = if belongs char then leading belongs text + 1 else 0 := by
  rw [leading, List.takeWhile_cons]
  split <;> rfl

theorem drop_leading (text : List Char) :
    text.drop (leading belongs text) = text.dropWhile belongs := by
  have parts := List.takeWhile_append_dropWhile (p := belongs) (l := text)
  have dropped : (text.takeWhile belongs ++ text.dropWhile belongs).drop
      (text.takeWhile belongs).length = text.dropWhile belongs := List.drop_left
  rw [parts] at dropped
  exact dropped

theorem head?_drop_leading (text : List Char) :
    ∀ char ∈ (text.drop (leading belongs text)).head?, belongs char = false := by
  intro char found
  have first := List.head?_dropWhile_not belongs text
  rw [drop_leading] at found
  rw [Option.mem_def.mp found] at first
  exact first

theorem leading_eq_zero (none : ∀ char ∈ text.head?, belongs char = false) :
    leading belongs text = 0 := by
  cases text with
  | nil => rfl
  | cons char text => rw [leading_cons, none char rfl, if_neg Bool.false_ne_true]

/-! ## Texts that begin alike -/

/-- Two texts agree on as many characters, and on where they end before that. -/
def Agrees (count : Nat) (text text' : List Char) : Prop := text'.take count = text.take count

namespace Agrees

variable {count : Nat}

theorem mono {fewer : Nat} (agrees : Agrees count text text') (le : fewer ≤ count) :
    Agrees fewer text text' := by
  have same := congrArg (List.take fewer) agrees
  rw [List.take_take, List.take_take, Nat.min_eq_left le] at same
  exact same

theorem drop (agrees : Agrees count text text') (number fewer : Nat)
    (le : number + fewer ≤ count) : Agrees fewer (text.drop number) (text'.drop number) := by
  have same := congrArg (List.drop number) agrees
  rw [List.drop_take, List.drop_take] at same
  exact mono same (Nat.le_sub_of_add_le' le)

theorem head? (agrees : Agrees count text text') (pos : 0 < count) :
    text'.head? = text.head? := by
  have same := congrArg List.head? agrees
  rw [List.head?_take, List.head?_take, if_neg (Nat.ne_of_gt pos),
    if_neg (Nat.ne_of_gt pos)] at same
  exact same

theorem takeWhile (agrees : Agrees count text text') (belongs : Char → Bool)
    (lt : leading belongs text < count) : text'.takeWhile belongs = text.takeWhile belongs := by
  replace agrees := agrees.mono lt
  clear lt
  induction text generalizing text' with
  | nil =>
      cases text' with
      | nil => rfl
      | cons char rest => cases agrees
  | cons char text inductionHypothesis =>
      cases text' with
      | nil => cases agrees
      | cons char' text' =>
          rcases List.cons.inj agrees with ⟨rfl, rest⟩
          by_cases isOne : belongs char' = true
          · rw [leading_cons, if_pos isOne] at rest
            rw [List.takeWhile_cons_of_pos isOne, List.takeWhile_cons_of_pos isOne,
              inductionHypothesis rest]
          · rw [List.takeWhile_cons_of_neg isOne, List.takeWhile_cons_of_neg isOne]

theorem leading (agrees : Agrees count text text') (lt : Text.leading belongs text < count) :
    Text.leading belongs text' = Text.leading belongs text :=
  congrArg List.length (agrees.takeWhile belongs lt)

end Agrees

end Text

end Reparse
