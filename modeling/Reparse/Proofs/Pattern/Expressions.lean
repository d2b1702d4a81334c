import Reparse.Pattern.Syntax

namespace Reparse

/-!
# Expressions and how they are written

What a pattern says is an expression.  Its meaning is given here without regard
to programs and matchers: from each index of a text it says where a match ends,
or that there is none.  Alternatives are tried in order, parts follow one another,
and repetition is greedy and never takes anything back.

An expression can be written in many ways.  A character may be escaped where it
need not be, parentheses may stand where none are needed, and a number may begin
with zeros.  Parentheses have to stand where a looser expression takes the place
of a tighter one.  A literal of several characters is as loose as a sequence,
because an operator behind it would apply to its last character alone.
-/

namespace Pattern

/-- What a class lists. -/
inductive Item where
  | char (only : Char)
  | range (first last : Char)
deriving DecidableEq, Repr

def Item.contains (char : Char) : Item → Bool
  | .char only => char == only
  | .range first last => decide (first ≤ char) && decide (char ≤ last)

/-- A count without an upper bound has no `most`. -/
inductive Expression where
  | literal (chars : List Char)
  | charClass (items : List Item)
  | union (parts : List Expression)
  | concat (parts : List Expression)
  | star (part : Expression)
  | plus (part : Expression)
  | optional (part : Expression)
  | counted (least : Nat) (most : Option Nat) (part : Expression)

/-! ## Meaning -/

/-- Where a match from an index of a text ends. -/
abbrev Meaning := List Char → Nat → Option Nat

namespace Meaning

/-- Nothing at all, which is found everywhere. -/
def empty : Meaning := fun _ index => some index

def nowhere : Meaning := fun _ _ => none

/-- One character of a class. -/
def one (belongs : Char → Bool) : Meaning := fun text index =>
  if (text[index]?).any belongs then some (index + 1) else none

def andThen (first second : Meaning) : Meaning := fun text index =>
  (first text index).bind (second text)

def orElse (first second : Meaning) : Meaning := fun text index =>
  (first text index).or (second text index)

def literal : List Char → Meaning
  | [] => empty
  | char :: chars => (one (· == char)).andThen (literal chars)

def times (part : Meaning) : Nat → Meaning
  | 0 => empty
  | count + 1 => part.andThen (part.times count)

/-- Where a part ends that is repeated a number of times, or until it fails. -/
def upTo (part : Meaning) : Nat → List Char → Nat → Nat
  | 0, _, index => index
  | count + 1, text, index =>
    match part text index with
    | some stop => part.upTo count text stop
    | none => index

def atMost (part : Meaning) (count : Nat) : Meaning := fun text index =>
  some (part.upTo count text index)

/-- Any number of repetitions.  Not more of them can move ahead than there are characters, and
those that do not move change nothing. -/
def star (part : Meaning) : Meaning := fun text index => some (part.upTo text.length text index)

/-- At least so many repetitions, and not more than there may be. -/
def counted (part : Meaning) (least : Nat) : Option Nat → Meaning
  | some most => (part.times least).andThen (part.atMost (most - least))
  | none => (part.times least).andThen part.star

@[simp] theorem empty_andThen (meaning : Meaning) : empty.andThen meaning = meaning := rfl

@[simp] theorem andThen_empty (meaning : Meaning) : meaning.andThen empty = meaning := by
  funext text index
  exact Option.bind_fun_some _

theorem andThen_assoc (first second third : Meaning) :
    (first.andThen second).andThen third = first.andThen (second.andThen third) := by
  funext text index
  exact Option.bind_assoc ..

@[simp] theorem orElse_nowhere (meaning : Meaning) : meaning.orElse nowhere = meaning := by
  funext text index
  exact Option.or_none

theorem orElse_assoc (first second third : Meaning) :
    (first.orElse second).orElse third = first.orElse (second.orElse third) := by
  funext text index
  exact Option.or_assoc

theorem literal_append (chars chars' : List Char) :
    literal (chars ++ chars') = (literal chars).andThen (literal chars') := by
  induction chars with
  | nil => rfl
  | cons char chars inductionHypothesis =>
      rw [List.cons_append, literal, inductionHypothesis, literal, andThen_assoc]

/-- A class without characters. -/
theorem one_false : one (fun _ => false) = nowhere := by
  funext text index
  rw [one]
  cases text[index]? <;> rfl

/-- One character of either of two classes. -/
theorem one_orElse_one (belongs belongs' : Char → Bool) :
    (one belongs).orElse (one belongs') = one fun char => belongs char || belongs' char := by
  funext text index
  rw [orElse, one, one, one]
  cases text[index]? with
  | none => rfl
  | some char =>
      rw [Option.any_some, Option.any_some, Option.any_some]
      cases belongs char <;> rfl

/-- Repeating goes no further where a part fails, and where it does not move. -/
theorem upTo_of_stays {meaning : Meaning} {text : List Char} {index : Nat}
    (stays : meaning text index = none ∨ meaning text index = some index) (count : Nat) :
    meaning.upTo count text index = index := by
  induction count with
  | zero => rfl
  | succ count inductionHypothesis =>
      rw [upTo]
      rcases stays with missing | idle
      · rw [missing]
      · rw [idle]
        exact inductionHypothesis

/-! ### Greedy repetition -/

/-- Matches do not end before they begin, nor behind the text. -/
structure Advances (meaning : Meaning) : Prop where
  bounds : ∀ {text index stop}, index ≤ text.length → meaning text index = some stop →
    index ≤ stop ∧ stop ≤ text.length

namespace Advances

variable {part first second : Meaning} {text : List Char} {index : Nat}

theorem empty : Meaning.empty.Advances := by
  constructor
  rintro text index _ inside ⟨⟩
  exact ⟨Nat.le_refl _, inside⟩

theorem nowhere : Meaning.nowhere.Advances := by
  constructor
  rintro text index stop inside ⟨⟩

theorem one (belongs : Char → Bool) : (Meaning.one belongs).Advances := by
  constructor
  intro text index stop inside found
  rw [Meaning.one] at found
  split at found
  · next holds =>
      rcases (Option.any_eq_true _ _).mp holds with ⟨char, isChar, _⟩
      cases found
      exact ⟨Nat.le_succ _, (List.getElem?_eq_some_iff.mp isChar).1⟩
  · cases found

theorem andThen (advances : first.Advances) (advances' : second.Advances) :
    (first.andThen second).Advances := by
  constructor
  intro text index stop inside found
  rcases Option.bind_eq_some_iff.mp found with ⟨middle, found, found'⟩
  have ahead := advances.bounds inside found
  have further := advances'.bounds ahead.2 found'
  exact ⟨Nat.le_trans ahead.1 further.1, further.2⟩

theorem orElse (advances : first.Advances) (advances' : second.Advances) :
    (first.orElse second).Advances := by
  constructor
  intro text index stop inside found
  rcases Option.or_eq_some_iff.mp found with found | ⟨_, found⟩
  · exact advances.bounds inside found
  · exact advances'.bounds inside found

theorem literal (chars : List Char) : (Meaning.literal chars).Advances := by
  induction chars with
  | nil => exact empty
  | cons char chars inductionHypothesis => exact (one _).andThen inductionHypothesis

theorem times (advances : part.Advances) (count : Nat) : (part.times count).Advances := by
  induction count with
  | zero => exact empty
  | succ count inductionHypothesis => exact advances.andThen inductionHypothesis

theorem atMost (advances : part.Advances) (count : Nat) : (part.atMost count).Advances := by
  constructor
  rintro text index _ inside ⟨⟩
  induction count generalizing index with
  | zero => exact ⟨Nat.le_refl _, inside⟩
  | succ count inductionHypothesis =>
      rw [upTo]
      cases found : part text index with
      | none => exact ⟨Nat.le_refl _, inside⟩
      | some stop =>
          have ahead := advances.bounds inside found
          have further := inductionHypothesis ahead.2
          exact ⟨Nat.le_trans ahead.1 further.1, further.2⟩

theorem star (advances : part.Advances) : part.star.Advances where
  bounds {text _ _} inside found := (advances.atMost text.length).bounds inside found

theorem counted (advances : part.Advances) (least : Nat) (most : Option Nat) :
    (part.counted least most).Advances := by
  cases most with
  | none => exact (advances.times least).andThen advances.star
  | some most => exact (advances.times least).andThen (advances.atMost _)

/-- More rounds than there are characters left change nothing. -/
theorem upTo_eq_upTo (advances : part.Advances) {count more : Nat} (inside : index ≤ text.length)
    (enough : text.length - index ≤ count) (enough' : text.length - index ≤ more) :
    part.upTo count text index = part.upTo more text index := by
  induction count generalizing index more with
  | zero =>
      have stays : part text index = none ∨ part text index = some index := by
        cases found : part text index with
        | none => exact Or.inl rfl
        | some stop =>
            have ahead := advances.bounds inside found
            have idle : stop = index := by omega
            exact Or.inr (congrArg some idle)
      rw [upTo_of_stays stays, upTo_of_stays stays]
  | succ count inductionHypothesis =>
      cases found : part text index with
      | none => rw [upTo_of_stays (Or.inl found), upTo_of_stays (Or.inl found)]
      | some stop =>
          by_cases idle : stop = index
          · subst idle
            rw [upTo_of_stays (Or.inr found), upTo_of_stays (Or.inr found)]
          · have ahead := advances.bounds inside found
            rcases Nat.exists_eq_succ_of_ne_zero (show more ≠ 0 by omega) with ⟨more, rfl⟩
            rw [upTo, upTo, found]
            exact inductionHypothesis ahead.2 (by omega) (by omega)

/-- A repetition goes on behind each part that is found and moves ahead, and never goes back. -/
theorem star_eq (advances : part.Advances) (inside : index ≤ text.length) :
    part.star text index =
      match part text index with
      | some stop => if stop = index then some index else part.star text stop
      | none => some index := by
  rw [Meaning.star]
  cases found : part text index with
  | none => exact congrArg some (upTo_of_stays (Or.inl found) _)
  | some stop =>
      by_cases idle : stop = index
      · subst idle
        simp only [if_true]
        exact congrArg some (upTo_of_stays (Or.inr found) _)
      · have ahead := advances.bounds inside found
        have once : part.upTo (text.length + 1) text index = part.upTo text.length text stop := by
          rw [upTo, found]
        simp only [if_neg idle]
        rw [Meaning.star, ← once, advances.upTo_eq_upTo inside (Nat.sub_le _ _)
          (Nat.le_succ_of_le (Nat.sub_le _ _))]

end Advances

end Meaning

namespace Expression

mutual

def meaning : Expression → Meaning
  | .literal chars => .literal chars
  | .charClass items => .one fun char => items.any (·.contains char)
  | .union parts => meaningOfAny parts
  | .concat parts => meaningOfAll parts
  | .star part => part.meaning.star
  | .plus part => part.meaning.andThen part.meaning.star
  | .optional part => part.meaning.atMost 1
  | .counted least most part => part.meaning.counted least most

def meaningOfAny : List Expression → Meaning
  | [] => .nowhere
  | part :: parts => part.meaning.orElse (meaningOfAny parts)

def meaningOfAll : List Expression → Meaning
  | [] => .empty
  | part :: parts => part.meaning.andThen (meaningOfAll parts)

end

mutual

theorem meaning_advances : ∀ expression : Expression, expression.meaning.Advances
  | .literal chars => .literal chars
  | .charClass _ => .one _
  | .union parts => meaningOfAny_advances parts
  | .concat parts => meaningOfAll_advances parts
  | .star part => part.meaning_advances.star
  | .plus part => part.meaning_advances.andThen part.meaning_advances.star
  | .optional part => part.meaning_advances.atMost 1
  | .counted least most part => part.meaning_advances.counted least most

theorem meaningOfAny_advances : ∀ parts : List Expression, (meaningOfAny parts).Advances
  | [] => .nowhere
  | part :: parts => part.meaning_advances.orElse (meaningOfAny_advances parts)

theorem meaningOfAll_advances : ∀ parts : List Expression, (meaningOfAll parts).Advances
  | [] => .empty
  | part :: parts => part.meaning_advances.andThen (meaningOfAll_advances parts)

end

/-- A star is greedy, and takes back nothing of what it has found. -/
theorem meaning_star (part : Expression) {text : List Char} {index : Nat}
    (inside : index ≤ text.length) :
    (star part).meaning text index =
      match part.meaning text index with
      | some stop => if stop = index then some index else (star part).meaning text stop
      | none => some index :=
  part.meaning_advances.star_eq inside

end Expression

/-! ## Writing -/

/-- A character that is not reserved stands for itself, and any does behind a percent sign. -/
inductive Spells (reserved : Char → Bool) (char : Char) : List Char → Prop where
  | plain (free : reserved char = false) (different : char ≠ '%') : Spells reserved char [char]
  | escaped : Spells reserved char ['%', char]

/-- Characters one after another, none of which is special. -/
inductive Spelling : List Char → List Char → Prop where
  | nil : Spelling [] []
  | cons {char : Char} {chars written rest : List Char} (spells : Spells isSpecial char written)
      (spelling : Spelling chars rest) : Spelling (char :: chars) (written ++ rest)

/-- Characters with a meaning in classes. -/
def isReservedInClass (char : Char) : Bool := char == ']' || char == '-'

/-- The items of a class one after another. -/
inductive Listing : List Item → List Char → Prop where
  | nil : Listing [] []
  | char {only : Char} {items : List Item} {written rest : List Char}
      (spells : Spells isReservedInClass only written) (listing : Listing items rest) :
      Listing (.char only :: items) (written ++ rest)
  | range {first last : Char} {items : List Item} {written written' rest : List Char}
      (spells : Spells isReservedInClass first written)
      (spells' : Spells isReservedInClass last written') (ordered : first ≤ last)
      (listing : Listing items rest) :
      Listing (.range first last :: items) (written ++ '-' :: (written' ++ rest))

/-- A number that is accepted as a count, in decimal digits. -/
structure Numbers (count : Nat) (written : List Char) : Prop where
  nonempty : written ≠ []
  digits : ∀ char ∈ written, char.isDigit = true
  value : Nat.ofDigitChars 10 written 0 = count
  accepted : count ≤ maxRepeat

/-- The bounds of a count, without the braces. -/
inductive Bounds : Nat → Option Nat → List Char → Prop where
  | exactly {count : Nat} {written : List Char} (numbers : Numbers count written) :
      Bounds count (some count) written
  | atLeast {least : Nat} {written : List Char} (numbers : Numbers least written) :
      Bounds least none (written ++ [','])
  | atMost {most : Nat} {written : List Char} (numbers : Numbers most written) :
      Bounds 0 (some most) (',' :: written)
  | between {least most : Nat} {written written' : List Char} (numbers : Numbers least written)
      (numbers' : Numbers most written') (ordered : least ≤ most) :
      Bounds least (some most) (written ++ ',' :: written')

/-- How tight an expression is, from the loosest to the tightest. -/
inductive Level where
  | union
  | concat
  | postfixed

/-- What is written: an expression in a place for one, or several of them in a row. -/
inductive Phrase where
  | single (level : Level) (expression : Expression)
  | alternatives (parts : List Expression)
  | sequence (parts : List Expression)

inductive Written : Phrase → List Char → Prop where
  | letter {char : Char} {written : List Char} (spells : Spells isSpecial char written) :
      Written (.single .postfixed (.literal [char])) written
  | literal {chars written : List Char} (some : chars ≠ []) (spelling : Spelling chars written) :
      Written (.single .concat (.literal chars)) written
  | charClass {items : List Item} {written : List Char} (listing : Listing items written) :
      Written (.single .postfixed (.charClass items)) ('[' :: (written ++ [']']))
  | union {parts : List Expression} {written : List Char} (several : 2 ≤ parts.length)
      (alternatives : Written (.alternatives parts) written) :
      Written (.single .union (.union parts)) written
  | concat {parts : List Expression} {written : List Char} (several : 2 ≤ parts.length)
      (sequence : Written (.sequence parts) written) :
      Written (.single .concat (.concat parts)) written
  | star {part : Expression} {written : List Char} (operand : Written (.single .postfixed part) written) :
      Written (.single .postfixed (.star part)) (written ++ ['*'])
  | plus {part : Expression} {written : List Char} (operand : Written (.single .postfixed part) written) :
      Written (.single .postfixed (.plus part)) (written ++ ['+'])
  | optional {part : Expression} {written : List Char}
      (operand : Written (.single .postfixed part) written) :
      Written (.single .postfixed (.optional part)) (written ++ ['?'])
  | counted {least : Nat} {most : Option Nat} {part : Expression} {written bounds : List Char}
      (operand : Written (.single .postfixed part) written) (counts : Bounds least most bounds) :
      Written (.single .postfixed (.counted least most part))
        (written ++ '\x7b' :: (bounds ++ ['\x7d']))
  | parentheses {inner : Expression} {written : List Char}
      (pattern : Written (.single .union inner) written) :
      Written (.single .postfixed inner) ('(' :: (written ++ [')']))
  | asPart {part : Expression} {written : List Char} (operand : Written (.single .postfixed part) written) :
      Written (.single .concat part) written
  | asAlternative {part : Expression} {written : List Char}
      (sequence : Written (.single .concat part) written) : Written (.single .union part) written
  | lastAlternative {part : Expression} {written : List Char}
      (last : Written (.single .union part) written) : Written (.alternatives [part]) written
  | moreAlternatives {part : Expression} {parts : List Expression} {written rest : List Char}
      (first : Written (.single .union part) written) (others : Written (.alternatives parts) rest) :
      Written (.alternatives (part :: parts)) (written ++ '|' :: rest)
  | lastPart {part : Expression} {written : List Char} (last : Written (.single .concat part) written) :
      Written (.sequence [part]) written
  | moreParts {part : Expression} {parts : List Expression} {written rest : List Char}
      (first : Written (.single .concat part) written) (others : Written (.sequence parts) rest) :
      Written (.sequence (part :: parts)) (written ++ rest)

/-- The decimal digits of a count are a way to write it. -/
theorem numbers_toDigits {count : Nat} (accepted : count ≤ maxRepeat) :
    Numbers count (Nat.toDigits 10 count) where
  nonempty := Nat.toDigits_ne_nil
  digits := fun _ member => Nat.isDigit_of_mem_toDigits (by decide) (by decide) member
  value := Nat.ofDigitChars_toDigits (by decide) (by decide)
  accepted := accepted

end Pattern

end Reparse
