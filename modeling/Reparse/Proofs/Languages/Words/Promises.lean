import Reparse.Proofs.Languages.Words.Derivations
import Reparse.Proofs.Parsing.Findings

namespace Reparse

/-!
# Promises of the rules for lists of words

A rule is to find what the derivations say of the text from an index on, and no state has a
say in it.  The text two characters beyond a node decides what is found, so a node can be
kept under any margin of at least one.
-/

namespace Words

/-! ## Tokens -/

section Tokens

variable {text : List Char} {index : Nat}

theorem read_letters (text : List Char) (index : Nat) :
    (Token.takeWhile Text.isAlphanumeric).read text index =
      .ok (letters (text.drop index), index + (letters (text.drop index)).length) :=
  Token.read_takeWhile text index Text.isAlphanumeric

theorem read_word :
    word.read text index =
      if letters (text.drop index) = [] then .error (.message "expected a word")
      else .ok (String.ofList (letters (text.drop index)),
        index + (letters (text.drop index)).length) := by
  rw [word, Token.read_bind, read_letters]
  by_cases none : letters (text.drop index) = []
  · rw [if_pos none]
    simp only [none]
    rfl
  · rw [if_neg none]
    simp only [List.isEmpty_iff, none, if_false]
    rfl

theorem read_tag (sign : (text.drop index).head? = some '#') :
    tag.read text index =
      if letters (text.drop (index + 1)) = [] then .error (.failed (index + 1))
      else .ok (String.ofList ('#' :: letters (text.drop (index + 1))),
        index + 1 + (letters (text.drop (index + 1))).length) := by
  rw [tag, Token.read_bind, symbol, Token.read_exactly, if_pos sign]
  simp only [Token.read_bind, read_letters]
  by_cases none : letters (text.drop (index + 1)) = []
  · rw [if_pos none]
    simp only [none]
    rfl
  · rw [if_neg none]
    simp only [List.isEmpty_iff, none, if_false]
    rfl

theorem skipEnd_eq (text : List Char) (index : Nat) :
    grammar.skipEnd text index = index + blanks (text.drop index) :=
  Token.skipOver_satisfy text index isBlank "expected whitespace"

end Tokens

/-! ## The promise -/

/-- The rules are to find what is derived from the text behind an index. -/
def findings (margin : Nat) (wide : 1 ≤ margin) : Findings grammar where
  Goal := Rule
  Asks _ rule _ goal := goal = rule
  Wanted _ _ _ := True
  Inner goal text index outline := Derives (.body goal) (text.drop index) outline
  Whole goal text index outline := Derives (.node goal) (text.drop index) outline
  margin := margin
  asks_mono _ asks := asks
  asks_unique asks asks' := asks.trans asks'.symm
  asks_of_sameState _ asks := asks
  skips_forward text index := by
    rw [skipEnd_eq]
    exact Nat.le_add_right _ _
  whole_of_inner := by
    intro goal text index label length children found
    have total : grammar.skipEnd text (grammar.skipEnd text index + length) - index =
        blanks (text.drop index) + length +
          blanks ((text.drop index).drop (blanks (text.drop index) + length)) := by
      rw [skipEnd_eq, skipEnd_eq, List.drop_drop, ← Nat.add_assoc index]
      omega
    rw [skipEnd_eq, ← List.drop_drop] at found
    rw [total]
    exact .node found
  persists := by
    rintro goal text text' span span' outline forward forward' within within' same length derives
    have ahead := ahead_of_surroundings forward forward' within within' same
    have agrees : Text.Agrees (outline.length + 2) (text.drop span.start)
        (text'.drop span'.start) := by
      rw [← length]
      exact Text.Agrees.mono ahead (by omega)
    exact derives.of_agrees agrees

end Words

end Reparse
