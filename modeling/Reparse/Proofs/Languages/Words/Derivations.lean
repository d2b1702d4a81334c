import Reparse.Languages.Words
import Reparse.Proofs.Parsing.Outlines
import Reparse.Proofs.Text.Beginnings

namespace Reparse

/-!
# What is found in lists of words

The rules for lists of words can be read as a definition of what they are to find in front
of a text.  The outline of a node depends on the characters that it covers and on two more.
Two are needed for a lone number sign: it is not consumed, and the character behind it
decides that it is lone.

A lone number sign is a token that fails at an index, and the index is written into the
label of its node.  A text does not know where it is, so any index may stand there.  Apart
from these labels a text has at most one outline.
-/

namespace Words

/-! ## Characters -/

def isBlank (char : Char) : Bool := char == ' ' || char == '\n'

/-- How many blanks a text begins with. -/
def blanks (text : List Char) : Nat := Text.leading isBlank text

/-- The letters and digits that a text begins with. -/
def letters (text : List Char) : List Char := text.takeWhile Text.isAlphanumeric

/-- What decides how an item is read. -/
inductive Opening where
  | bracket
  | sign
  | bang
  | question
  | other
deriving DecidableEq, Repr

/-- What a text begins with. -/
def opening (text : List Char) : Opening :=
  if text.head? = some '[' then .bracket
  else if text.head? = some '#' then .sign
  else if text.head? = some '!' then .bang
  else if text.head? = some '?' then .question
  else .other

/-- A list does not go on here. -/
def Closes (text : List Char) : Prop := text.head? = none ∨ text.head? = some ']'

/-- A number sign that no letter or digit follows. -/
def LoneSign (text : List Char) : Prop := opening text = .sign ∧ letters (text.drop 1) = []

section Agreement

variable {count : Nat} {text text' : List Char}

theorem opening_of_agrees (agrees : Text.Agrees count text text') (pos : 0 < count) :
    opening text' = opening text := by
  rw [opening, opening, agrees.head? pos]

theorem closes_of_agrees (agrees : Text.Agrees count text text') (pos : 0 < count) :
    Closes text = Closes text' := by
  rw [Closes, Closes, agrees.head? pos]

end Agreement

/-! ## Derivations -/

/-- A node, or the body of one. -/
inductive Task where
  | node (rule : Rule)
  | body (rule : Rule)

/-- The outline that a task finds in front of a text. -/
inductive Derives : Task → List Char → Outline Label → Prop where
  | node {rule : Rule} {text : List Char} {content : Outline Label}
      (body : Derives (.body rule) (text.drop (blanks text)) content) :
      Derives (.node rule) text
        ⟨content.label, blanks text + content.length +
          blanks (text.drop (blanks text + content.length)), content.children⟩
  | done {text : List Char} (closes : Closes text) : Derives (.body .items) text ⟨.group, 0, []⟩
  | stuck {text : List Char} {item : Outline Label} (goesOn : ¬Closes text)
      (first : Derives (.node .item) text item) (empty : item.length = 0) :
      Derives (.body .items) text ⟨.group, 0, [item]⟩
  | further {text : List Char} {item others : Outline Label} (goesOn : ¬Closes text)
      (first : Derives (.node .item) text item) (some : item.length ≠ 0)
      (rest : Derives (.body .items) (text.drop item.length) others) :
      Derives (.body .items) text
        ⟨.group, item.length + others.length, item :: others.children⟩
  | group {text : List Char} {inner : Outline Label} (opens : opening text = .bracket)
      (items : Derives (.node .items) (text.drop 1) inner)
      (closing : (text.drop (1 + inner.length)).head? = some ']') :
      Derives (.body .item) text ⟨inner.label, 1 + inner.length + 1, inner.children⟩
  | unclosed {text : List Char} {inner : Outline Label} (opens : opening text = .bracket)
      (items : Derives (.node .items) (text.drop 1) inner)
      (noClosing : (text.drop (1 + inner.length)).head? ≠ some ']') :
      Derives (.body .item) text ⟨.error "expected ']'", 1 + inner.length, []⟩
  | tag {text : List Char} (opens : opening text = .sign) (some : letters (text.drop 1) ≠ []) :
      Derives (.body .item) text
        ⟨.word (String.ofList ('#' :: letters (text.drop 1))), 1 + (letters (text.drop 1)).length, []⟩
  | loneSign {text : List Char} (lone : LoneSign text) (position : Nat) :
      Derives (.body .item) text ⟨grammar.lexerError position, 0, []⟩
  | bang {text : List Char} (opens : opening text = .bang) :
      Derives (.body .item) text
        ⟨.error ("internal: " ++ (Fault.panic "item" "bang").describe), 1, []⟩
  | question {text : List Char} (opens : opening text = .question) :
      Derives (.body .item) text
        ⟨.error ("internal: " ++ (Fault.foreign "item" "invalid digit found in string").describe),
          1, []⟩
  | word {text : List Char} (opens : opening text = .other) (some : letters text ≠ []) :
      Derives (.body .item) text ⟨.word (String.ofList (letters text)), (letters text).length, []⟩
  | noWord {text : List Char} (opens : opening text = .other) (none : letters text = []) :
      Derives (.body .item) text ⟨.error "expected a word", 0, []⟩

/-- Labels are related that may be found in front of one text. -/
structure Admits (labels : Label → Label → Prop) (text : List Char) : Prop where
  same : ∀ label, labels label label
  places : ∀ index, LoneSign (text.drop index) → ∀ position position',
    labels (grammar.lexerError position) (grammar.lexerError position')

theorem Admits.drop {labels : Label → Label → Prop} {text : List Char}
    (admits : Admits labels text) (number : Nat) : Admits labels (text.drop number) := by
  refine ⟨admits.same, fun index lone => ?_⟩
  rw [List.drop_drop] at lone
  exact admits.places _ lone

namespace Derives

variable {task : Task} {text text' : List Char} {outline outline' : Outline Label}

/-- What an item begins with decides what is found for it. -/
theorem item_cases (derives : Derives (.body .item) text outline) :
    match opening text with
    | .bracket => ∃ inner, Derives (.node .items) (text.drop 1) inner ∧
        outline = if (text.drop (1 + inner.length)).head? = some ']' then
          ⟨inner.label, 1 + inner.length + 1, inner.children⟩
        else ⟨.error "expected ']'", 1 + inner.length, []⟩
    | .sign => if letters (text.drop 1) = [] then
          ∃ position, outline = ⟨grammar.lexerError position, 0, []⟩
        else outline = ⟨.word (String.ofList ('#' :: letters (text.drop 1))),
          1 + (letters (text.drop 1)).length, []⟩
    | .bang => outline = ⟨.error ("internal: " ++ (Fault.panic "item" "bang").describe), 1, []⟩
    | .question => outline = ⟨.error ("internal: " ++
        (Fault.foreign "item" "invalid digit found in string").describe), 1, []⟩
    | .other => outline = if letters text = [] then ⟨.error "expected a word", 0, []⟩
        else ⟨.word (String.ofList (letters text)), (letters text).length, []⟩ := by
  cases derives with
  | group opens items closing =>
      rw [opens]
      exact ⟨_, items, (if_pos closing).symm⟩
  | unclosed opens items noClosing =>
      rw [opens]
      exact ⟨_, items, (if_neg noClosing).symm⟩
  | tag opens some =>
      rw [opens]
      simp only [if_neg some]
  | loneSign lone position =>
      rw [lone.1]
      simp only [if_pos lone.2]
      exact ⟨position, rfl⟩
  | bang opens => rw [opens]
  | question opens => rw [opens]
  | word opens some =>
      rw [opens]
      exact (if_neg some).symm
  | noWord opens none =>
      rw [opens]
      exact (if_pos none).symm

/-- What is found in a text is determined up to the labels of lone number signs. -/
theorem unique {labels : Label → Label → Prop} (admits : Admits labels text)
    (derives : Derives task text outline) (derives' : Derives task text outline') :
    Outline.Related labels outline outline' := by
  induction derives generalizing outline' with
  | node body inductionHypothesis =>
      cases derives' with
      | node body' =>
          have same := inductionHypothesis (admits.drop _) body'
          rw [same.length]
          exact .node same.label same.children
  | done closes =>
      cases derives' with
      | done closes' => exact .node (admits.same _) .nil
      | stuck goesOn' first' empty' => exact absurd closes goesOn'
      | further goesOn' first' some' rest' => exact absurd closes goesOn'
  | stuck goesOn first empty inductionHypothesis =>
      cases derives' with
      | done closes' => exact absurd closes' goesOn
      | stuck goesOn' first' empty' =>
          exact .node (admits.same _) (.cons (inductionHypothesis admits first') .nil)
      | further goesOn' first' some' rest' =>
          rw [(inductionHypothesis admits first').length] at empty
          exact absurd empty some'
  | further goesOn first some rest firstHypothesis restHypothesis =>
      cases derives' with
      | done closes' => exact absurd closes' goesOn
      | stuck goesOn' first' empty' =>
          rw [(firstHypothesis admits first').length] at some
          exact absurd empty' some
      | further goesOn' first' some' rest' =>
          have same := firstHypothesis admits first'
          rw [← same.length] at rest' ⊢
          have following := restHypothesis (admits.drop _) rest'
          rw [following.length]
          exact .node (admits.same _) (.cons same following.children)
  | group opens items closing inductionHypothesis =>
      have found := derives'.item_cases
      simp only [opens] at found
      rcases found with ⟨inner', items', rfl⟩
      have same := inductionHypothesis (admits.drop _) items'
      rw [← same.length, if_pos closing]
      exact .node same.label same.children
  | unclosed opens items noClosing inductionHypothesis =>
      have found := derives'.item_cases
      simp only [opens] at found
      rcases found with ⟨inner', items', rfl⟩
      have same := inductionHypothesis (admits.drop _) items'
      rw [← same.length, if_neg noClosing]
      exact .node (admits.same _) .nil
  | tag opens some =>
      have found := derives'.item_cases
      simp only [opens, if_neg some] at found
      rw [found]
      exact .node (admits.same _) .nil
  | loneSign lone position =>
      have found := derives'.item_cases
      simp only [lone.1, if_pos lone.2] at found
      rcases found with ⟨position', rfl⟩
      exact .node (admits.places 0 lone position position') .nil
  | bang opens | question opens =>
      have found := derives'.item_cases
      simp only [opens] at found
      rw [found]
      exact .node (admits.same _) .nil
  | word opens some =>
      have found := derives'.item_cases
      simp only [opens, if_neg some] at found
      rw [found]
      exact .node (admits.same _) .nil
  | noWord opens none =>
      have found := derives'.item_cases
      simp only [opens, if_pos none] at found
      rw [found]
      exact .node (admits.same _) .nil

/-- What is found in a text is found in any text that begins with the same characters, and
has the same two behind them. -/
theorem of_agrees (derives : Derives task text outline)
    (agrees : Text.Agrees (outline.length + 2) text text') : Derives task text' outline := by
  induction derives generalizing text' with
  | @node rule text content body inductionHypothesis =>
      simp only at agrees
      have leading : blanks text' = blanks text := agrees.leading (by rw [← blanks]; omega)
      have trailing := agrees.drop (blanks text + content.length)
        (blanks (text.drop (blanks text + content.length)) + 1) (by omega)
      have inner := agrees.drop (blanks text) (content.length + 2) (by omega)
      have same : blanks (text'.drop (blanks text + content.length)) =
          blanks (text.drop (blanks text + content.length)) := trailing.leading (Nat.lt_succ_self _)
      rw [← same, ← leading]
      exact .node (inductionHypothesis (leading.symm ▸ inner))
  | done closes => exact .done (closes_of_agrees agrees (Nat.succ_pos _) ▸ closes)
  | stuck goesOn first empty inductionHypothesis =>
      refine .stuck (closes_of_agrees agrees (Nat.succ_pos _) ▸ goesOn) ?_ empty
      exact inductionHypothesis (empty ▸ agrees)
  | further goesOn first some rest firstHypothesis restHypothesis =>
      simp only at agrees
      exact .further (closes_of_agrees agrees (Nat.succ_pos _) ▸ goesOn)
        (firstHypothesis (agrees.mono (by omega))) some
        (restHypothesis (agrees.drop _ _ (by omega)))
  | group opens items closing inductionHypothesis =>
      simp only at agrees
      refine .group ((opening_of_agrees agrees (Nat.succ_pos _)).trans opens)
        (inductionHypothesis (agrees.drop 1 _ (by omega))) ?_
      exact ((agrees.drop _ 1 (by omega)).head? Nat.one_pos).trans closing
  | unclosed opens items noClosing inductionHypothesis =>
      simp only at agrees
      refine .unclosed ((opening_of_agrees agrees (Nat.succ_pos _)).trans opens)
        (inductionHypothesis (agrees.drop 1 _ (by omega))) ?_
      rw [(agrees.drop _ 1 (by omega)).head? Nat.one_pos]
      exact noClosing
  | @tag text opens some =>
      simp only at agrees
      have same : letters (text'.drop 1) = letters (text.drop 1) :=
        (agrees.drop 1 ((letters (text.drop 1)).length + 1) (by omega)).takeWhile _
          (Nat.lt_succ_self _)
      rw [← same] at some ⊢
      exact .tag ((opening_of_agrees agrees (Nat.succ_pos _)).trans opens) some
  | @loneSign text lone position =>
      have same : letters (text'.drop 1) = letters (text.drop 1) :=
        (agrees.drop 1 1 (Nat.le_refl _)).takeWhile _
          (by rw [Text.leading, ← letters, lone.2]; exact Nat.one_pos)
      exact .loneSign ⟨(opening_of_agrees agrees (Nat.succ_pos _)).trans lone.1,
        same.trans lone.2⟩ position
  | bang opens => exact .bang ((opening_of_agrees agrees (Nat.succ_pos _)).trans opens)
  | question opens => exact .question ((opening_of_agrees agrees (Nat.succ_pos _)).trans opens)
  | @word text opens some =>
      have same : letters text' = letters text :=
        agrees.takeWhile _ (Nat.lt_succ_of_lt (Nat.lt_succ_self _))
      rw [← same] at some ⊢
      exact .word ((opening_of_agrees agrees (Nat.succ_pos _)).trans opens) some
  | @noWord text opens none =>
      have same : letters text' = letters text := agrees.takeWhile _
        (by rw [Text.leading, ← letters, none]; exact Nat.two_pos)
      exact .noWord ((opening_of_agrees agrees (Nat.succ_pos _)).trans opens) (same.trans none)

end Derives

end Words

end Reparse
